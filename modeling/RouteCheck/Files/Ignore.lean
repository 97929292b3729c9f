import RouteCheck.Files.Glob
import RouteCheck.Files.Tree
import RouteCheck.Text.Blank

/-!
Ignore files: which entries of a directory tree are passed over.

Each directory can have a `.ignore` file, and in a Git work tree a `.gitignore` file and the
repository's own exclude file. Rules apply below the directory of their file, the last rule of a
file first, and deeper files first. `.ignore` files decide before `.gitignore` files, and these
before exclude files. Git's files count up to the work tree's top. An entry that no rule decides
is passed over if its name begins with a dot.
-/

namespace RouteCheck

/-- What rules decide of an entry. -/
inductive Verdict where
  | ignored | kept
  deriving DecidableEq, Repr

/-- A line of an ignore file. -/
structure IgnoreRule where
  pattern : List Glob
  verdict : Verdict
  /-- Only directories are meant. -/
  dirsOnly : Bool
  deriving Repr

namespace IgnoreRule

/-- The sign in front of a line, which tells what the rule decides, and the rest. -/
def sign (line : String) : Verdict × String :=
  match line.toList with
  | '!' :: cs => (.kept, String.ofList cs)
  | '\\' :: c :: cs =>
    if c = '!' || c = '#' then (.ignored, String.ofList (c :: cs)) else (.ignored, line)
  | _ => (.ignored, line)

/-- The glob of a pattern that is anchored to the directory, or may match at any depth. -/
def globText (anchored : Bool) (body : String) : String :=
  let free := !anchored && !Text.contains '/' body && body != "**"
  let glob := if free then "**/" ++ body else body
  if Text.endsWith "/**" glob then glob ++ "/*" else glob

/-- The rule of a line without trailing blanks. -/
def ofTrimmed? (line : String) : Option IgnoreRule :=
  let (verdict, body) := sign line
  let (anchored, body) := match Text.dropLead? "/" body with
    | some rest => (true, rest)
    | none => (false, body)
  let (dirsOnly, body) := match Text.dropTail? "/" body with
    | some front => (true, (Text.dropTail? "\\" front).getD front)
    | none => (false, body)
  (Glob.read? (globText anchored body)).map fun pattern => { pattern, verdict, dirsOnly }

/-- The rule of a line; comments, empty lines and lines that are no pattern have none. -/
def ofLine? (line : String) : Option IgnoreRule :=
  if Text.startsWith "#" line then none
  else
    let line := if Text.endsWith "\\ " line then line else Text.trimEnd line
    if line = "" then none else ofTrimmed? line

def ofText (s : String) : List IgnoreRule :=
  let lines := Text.split '\n' ((Text.dropLead? "\uFEFF" s).getD s)
  lines.filterMap fun line => ofLine? ((Text.dropTail? "\r" line).getD line)

def applies (r : IgnoreRule) (path : Text.Octets) (isDir : Bool) : Bool :=
  (!r.dirsOnly || isDir) && Glob.isMatch r.pattern path

/-- What a list of rules decides: the last one that applies counts. -/
def decide? (rs : List IgnoreRule) (path : Text.Octets) (isDir : Bool) : Option Verdict :=
  (rs.reverse.find? (·.applies path isDir)).map (·.verdict)

end IgnoreRule

/-- The rules of one directory. -/
structure IgnoreLevel where
  /-- Number of names on the way to the directory. -/
  depth : Nat
  ignore : List IgnoreRule
  git : List IgnoreRule
  exclude : List IgnoreRule
  /-- The directory is the top of a Git work tree. -/
  hasGit : Bool
  deriving Repr

namespace IgnoreLevel

def rulesAt (t : FileTree) (names : List String) : List IgnoreRule :=
  match t.at? names with
  | some (.file (some s)) => IgnoreRule.ofText s
  | _ => []

/-- The rules of a directory at a place. -/
def ofDir (place : List String) (t : FileTree) : IgnoreLevel :=
  { depth := place.length
    ignore := rulesAt t [".ignore"]
    git := rulesAt t [".gitignore"]
    exclude := rulesAt t [".git", "info", "exclude"]
    hasGit := (t.entry? ".git").isSome }

/-- The rules of the directories above a place, the deepest first. -/
def above (root : FileTree) (place : List String) : List IgnoreLevel :=
  ((List.range place.length).filterMap fun n =>
    (root.at? (place.take n)).map (ofDir (place.take n))).reverse

/-- What some of the rules of a level decide of a place. -/
def decide? (l : IgnoreLevel) (rules : List IgnoreRule) (place : List String) (isDir : Bool) :
    Option Verdict :=
  IgnoreRule.decide? rules (Text.Utf8.encode (String.intercalate "/" (place.drop l.depth))) isDir

/-- The levels up to the top of the work tree. -/
def workTree : List IgnoreLevel → List IgnoreLevel
  | [] => []
  | l :: ls => if l.hasGit then [l] else l :: workTree ls

/-- What the levels, the deepest first, decide of a place. -/
def verdict? (ls : List IgnoreLevel) (place : List String) (isDir : Bool) : Option Verdict :=
  let git := if ls.any (·.hasGit) then workTree ls else []
  ((ls.findSome? fun l => l.decide? l.ignore place isDir).or
    (git.findSome? fun l => l.decide? l.git place isDir)).or
    (git.findSome? fun l => l.decide? l.exclude place isDir)

/-- An entry of this name at this place is passed over. -/
def skips (ls : List IgnoreLevel) (place : List String) (name : String) (isDir : Bool) : Bool :=
  match verdict? ls place isDir with
  | some .ignored => true
  | some .kept => false
  | none => Text.startsWith "." name

end IgnoreLevel
end RouteCheck
