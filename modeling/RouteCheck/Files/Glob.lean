import RouteCheck.Text.Utf8
import RouteCheck.Text.Basic

/-!
Globs: patterns for paths.

`?` and `*` match one octet and any number of octets other than the slash, `[a-z]` and `[!a-z]`
one octet, `{a,b}` either pattern, and a backslash takes the special meaning from the character
after it. `**` between slashes matches any number of directories.

`Glob.rests` answers every rest of a path that a pattern can leave, which makes it a function by
recursion on the pattern alone.
-/

namespace RouteCheck

open Text (Octets)

inductive Glob where
  | literal (octets : Octets)
  /-- One octet that is no slash. -/
  | any
  /-- Octets without a slash. -/
  | star
  | range (negated : Bool) (ranges : List (Nat × Nat))
  /-- Any number of directories in front. -/
  | directories
  /-- A slash, any number of directories and a slash. -/
  | between
  /-- A slash and all that follows. -/
  | inside
  | either (choices : List (List Glob))
  deriving Repr, Inhabited

namespace Glob

def slash : UInt8 := 0x2F

/-! ## Matching -/

/-- The octets after `lead`, if the octets begin with it. -/
def after? : Octets → Octets → Option Octets
  | [], bs => some bs
  | _ :: _, [] => none
  | a :: as, b :: bs => if a = b then after? as bs else none

def ends : Octets → List Octets
  | [] => [[]]
  | b :: bs => (b :: bs) :: ends bs

/-- Every end that only octets other than slashes precede. -/
def endsInSegment : Octets → List Octets
  | [] => [[]]
  | b :: bs => (b :: bs) :: if b = slash then [] else endsInSegment bs

def endsAfterSlash : Octets → List Octets
  | [] => []
  | b :: bs => (if b = slash then [bs] else []) ++ endsAfterSlash bs

def inRanges (ranges : List (Nat × Nat)) (b : UInt8) : Bool :=
  ranges.any fun r => r.1 ≤ b.toNat && b.toNat ≤ r.2

mutual

/-- What the pattern can leave of a path. -/
def rests (path : Octets) : Glob → List Octets
  | literal octets => (after? octets path).toList
  | any =>
    match path with
    | b :: bs => if b = slash then [] else [bs]
    | [] => []
  | star => endsInSegment path
  | range negated ranges =>
    match path with
    | b :: bs => if inRanges ranges b != negated then [bs] else []
    | [] => []
  | directories =>
    path :: endsAfterSlash path
  | between =>
    match path with
    | b :: bs => if b = slash then bs :: endsAfterSlash bs else []
    | [] => []
  | inside =>
    match path with
    | b :: bs => if b = slash then ends bs else []
    | [] => []
  | either choices => choiceRests path choices

def choiceRests (path : Octets) : List (List Glob) → List Octets
  | [] => []
  | c :: cs => allRests [path] c ++ choiceRests path cs

/-- What a list of patterns can leave of one of several paths. -/
def allRests (paths : List Octets) : List Glob → List Octets
  | [] => paths
  | g :: gs => allRests (paths.flatMap fun p => rests p g) gs

end

/-- The patterns are `**` alone, which matches every path. -/
def isEverything : List Glob → Bool
  | [directories] => true
  | _ => false

def isMatch (gs : List Glob) (path : Octets) : Bool :=
  isEverything gs || (allRests [path] gs).any List.isEmpty

/-! ## Reading -/

/-- The octets of a character, as ranges: a range of characters reaches from the last octet of
its first character to the first octet of its last. -/
def octetRanges (r : Char × Char) : List (Nat × Nat) :=
  let lo := (String.utf8EncodeChar r.1).map UInt8.toNat
  if r.1 = r.2 then lo.map fun b => (b, b)
  else
    let hi := (String.utf8EncodeChar r.2).map UInt8.toNat
    lo.dropLast.map (fun b => (b, b)) ++ [(lo.getLastD 0, hi.headD 0)] ++ hi.tail.map fun b => (b, b)

def closeRange (c : Char) : List (Char × Char) → Option (List (Char × Char))
  | [] => none
  | [r] => if c < r.1 then none else some [(r.1, c)]
  | r :: rs => (closeRange c rs).map (r :: ·)

/-- The ranges of a class up to its bracket, after those in `done`, and the characters behind.
`first` until there is a character, `dashed` after a dash that may make a range. -/
def ranges? (done : List (Char × Char)) (first dashed : Bool) :
    List Char → Option (List (Char × Char) × List Char)
  | [] => none
  | c :: cs =>
    if c = ']' && !first then some (if dashed then done ++ [('-', '-')] else done, cs)
    else if c = '-' && !first && !dashed then ranges? done false true cs
    else if dashed then
      match closeRange c done with
      | some done => ranges? done false false cs
      | none => none
    else ranges? (done ++ [(c, c)]) false false cs

theorem length_ranges?_le {done : List (Char × Char)} {first dashed : Bool} {cs : List Char}
    {out : List (Char × Char) × List Char} (h : ranges? done first dashed cs = some out) :
    out.2.length ≤ cs.length := by
  induction cs generalizing done first dashed with
  | nil => simp [ranges?] at h
  | cons c cs ih =>
    simp only [ranges?] at h
    split at h
    · simp only [Option.some.injEq] at h
      subst h
      simp
    · split at h
      · exact Nat.le_succ_of_le (ih h)
      · split at h
        · split at h
          · exact Nat.le_succ_of_le (ih h)
          · simp at h
        · exact Nat.le_succ_of_le (ih h)

/-- The class that begins after a bracket, and the characters behind it. -/
def class? (cs : List Char) : Option (Glob × List Char) :=
  let (negated, cs) := match cs with
    | '!' :: rest | '^' :: rest => (true, rest)
    | _ => (false, cs)
  (ranges? [] true false cs).map fun (rs, rest) => (range negated (rs.flatMap octetRanges), rest)

theorem length_class?_le {cs : List Char} {out : Glob × List Char} (h : class? cs = some out) :
    out.2.length ≤ cs.length := by
  unfold class? at h
  split at h
  all_goals
    simp only [Option.map_eq_some_iff] at h
    obtain ⟨r, hr, rfl⟩ := h
    have := length_ranges?_le hr
    rename_i heq
    split at heq
    all_goals
      simp_all
      try omega

/-- Patterns that are being read: those of the pattern itself, and inside braces the choices
before the present one. -/
structure Draft where
  outer : List Glob := []
  /-- Earlier choices, and the present one, inside braces. -/
  braces : Option (List (List Glob) × List Glob) := none

namespace Draft

/-- Patterns read so far in the innermost list. -/
def current (d : Draft) : List Glob :=
  match d.braces with
  | some (_, now) => now
  | none => d.outer

def setCurrent (d : Draft) (gs : List Glob) : Draft :=
  match d.braces with
  | some (before, _) => { d with braces := some (before, gs) }
  | none => { d with outer := gs }

def push (d : Draft) (g : Glob) : Draft := d.setCurrent (d.current ++ [g])

/-- What two stars stand for, after `previous` and before the characters `cs`; answers also how
many characters of `cs` go with them. -/
def pushStars (d : Draft) (previous : Option Char) (cs : List Char) : Draft × Nat :=
  let plain := ((d.push star).push star, 0)
  let atStart := d.current.isEmpty
  let inBraces := d.braces.isSome
  if atStart then
    match cs with
    | [] => (d.push directories, 0)
    | c :: _ => if c = '/' then (d.push directories, 1) else plain
  else if previous ≠ some '/' && !(inBraces && (previous = some ',' || previous = some '\x7b')) then
    plain
  else
    let replaceLast (g : Glob) : Draft :=
      let kept := d.current.dropLast
      match d.current.getLast? with
      | some directories => d.setCurrent (kept ++ [directories])
      | some inside => d.setCurrent (kept ++ [inside])
      | _ => d.setCurrent (kept ++ [g])
    match cs with
    | [] => (replaceLast inside, 0)
    | c :: _ =>
      if inBraces && (c = ',' || c = '\x7d') then (replaceLast inside, 0)
      else if c = '/' then (replaceLast between, 1)
      else plain

def finish (d : Draft) : Option (List Glob) := if d.braces.isSome then none else some d.outer

end Draft

def ofChar (c : Char) : Glob := literal (String.utf8EncodeChar c)

/-- Read patterns; `previous` is the character before. -/
def readFrom (d : Draft) (previous : Option Char) : List Char → Option (List Glob)
  | [] => d.finish
  | '?' :: cs => readFrom (d.push any) (some '?') cs
  | '*' :: '*' :: cs =>
    let (d, taken) := d.pushStars previous cs
    readFrom d (if taken = 0 then some '*' else some '/') (cs.drop taken)
  | '*' :: cs => readFrom (d.push star) (some '*') cs
  | '[' :: cs =>
    match _h : class? cs with
    | some (g, rest) => readFrom (d.push g) (some ']') rest
    | none => none
  | '\\' :: c :: cs => readFrom (d.push (ofChar c)) (some c) cs
  | ['\\'] => none
  | c :: cs =>
    if c = '\x7b' then
      if d.braces.isSome then none else readFrom { d with braces := some ([], []) } (some c) cs
    else if c = '\x7d' then
      match d.braces with
      | some (before, now) =>
        readFrom { outer := d.outer ++ [either (before ++ [now])] } (some c) cs
      | none => none
    else if c = ',' then
      match d.braces with
      | some (before, now) => readFrom { d with braces := some (before ++ [now], []) } (some c) cs
      | none => readFrom (d.push (ofChar c)) (some c) cs
    else readFrom (d.push (ofChar c)) (some c) cs
termination_by cs => cs.length
decreasing_by
  all_goals try simp +arith
  have := length_class?_le _h
  simp only at this
  omega

def read? (s : String) : Option (List Glob) := readFrom {} none s.toList

end Glob
end RouteCheck
