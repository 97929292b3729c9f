import RouteCheck.Program.Declarations
import RouteCheck.Types.Ty

/-!
Types found through declarations: the results of a function and the fields of a struct.
-/

namespace RouteCheck

/-- Result types of a function, method or function literal of `file`. -/
def resultTypes (file : SourceFile) (func : Node) : List Ty :=
  match func.field? .result with
  | none => []
  | some result =>
    if result.kind != .parameterList then [Ty.ofNode file result]
    else result.named.flatMap fun param =>
      match param.field? .type with
      | none => []
      | some t => List.replicate (max (param.fields .name).length 1) (Ty.ofNode file t)

/-- How many named types and embedded structs a field may lie behind. -/
def maxEmbedding : Nat := 8

/-- What the fields of a struct say about the name `field`: its type if one of them declares
it, and the embedded types before the declaration. -/
def scanFields (file : SourceFile) (field : String) : List Node → Option Ty × List Ty
  | [] => (none, [])
  | d :: ds =>
    match d.kind, d.field? .type with
    | .fieldDeclaration, some t =>
      let names := d.fields .name
      if names.isEmpty then
        let (found, embedded) := scanFields file field ds
        (found, Ty.ofNode file t :: embedded)
      else if names.any (·.text == field) then (some (Ty.ofNode file t), [])
      else scanFields file field ds
    | _, _ => scanFields file field ds

/-- The declaration of the type that `owner` names, itself or by a pointer, and the type that it is
declared to be. -/
def Index.definition? (ix : Index) (here : SourceFile) (owner : Ty) : Option (Decl × Node) :=
  match owner.elem with
  | .named (some package) name => do
    let decl ← ix.type? here package name
    return (decl, ← decl.node.field? .type)
  | _ => none

/-- Type of `field` on the struct named by `owner`, seen from `here`; embedded structs are
searched in order, each to its depth, at most `depth` steps. -/
def fieldTypeWithin (ix : Index) (depth : Nat) (here : SourceFile) (owner : Ty) (field : String) :
    Option Ty :=
  match ix.definition? here owner with
  | none => none
  | some (decl, ty) =>
    if ty.kind != .structType then
      match depth with
      | 0 => none
      | d + 1 =>
        match Ty.ofNode decl.file ty with
        | .named p n => fieldTypeWithin ix d decl.file (.named p n) field
        | _ => none
    else
      match ty.named.find? (·.kind == .fieldDeclarationList) with
      | none => none
      | some list =>
        match scanFields decl.file field list.named with
        | (some t, _) => some t
        | (none, embedded) =>
          match depth with
          | 0 => none
          | d + 1 => embedded.findSome? fun e => fieldTypeWithin ix d decl.file e field

/-- Type of `field` on the struct named by `owner`, seen from `here`. -/
def fieldType? (ix : Index) (here : SourceFile) (owner : Ty) (field : String) : Option Ty :=
  fieldTypeWithin ix maxEmbedding here owner field

end RouteCheck
