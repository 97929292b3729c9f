import RouteCheck.Program.Declarations

/-!
What the index of a program finds by name.

Adding a declaration to the index appends it to one group of one table. So a group of the index of a
program lists the declarations that are made under its key, in their order (`Index.lists_build`),
and a look-up finds nothing where there is none.
-/

namespace RouteCheck

namespace Declaration

/-- The function that a declaration declares under this key. -/
def functionOf? (k : Index.Key) : Declaration → Option Decl
  | .function name d => if (d.file.package, name) = k then some d else none
  | _ => none

/-- The method that a declaration declares under this key, with its receiver type. -/
def methodOf? (k : Index.Key) : Declaration → Option (String × Decl)
  | .method receiver name d => if (d.file.package, name) = k then some (receiver, d) else none
  | _ => none

/-- The type that a declaration declares under this key. -/
def typeOf? (k : Index.Key) : Declaration → Option Decl
  | .type name d => if (d.file.package, name) = k then some d else none
  | _ => none

/-- The value that a declaration declares under this key. -/
def valueOf? (k : Index.Key) : Declaration → Option ValueDecl
  | .value name d => if (d.file.package, name) = k then some d else none
  | _ => none

end Declaration

namespace Index

variable {α : Type} {k : Key}

theorem getD_push (m : Std.HashMap Key (List α)) (k' : Key) (x : α) :
    (push m k' x).getD k [] = m.getD k [] ++ (if k' = k then some x else none).toList := by
  simp only [push, Std.HashMap.getD_insert, beq_iff_eq]
  split
  · next h => rw [h, Option.toList_some]
  · rw [Option.toList_none, List.append_nil]

theorem filterMap_concat {β : Type} (f : α → Option β) (as : List α) (a : α) :
    (as ++ [a]).filterMap f = as.filterMap f ++ (f a).toList := by
  rw [List.filterMap_append, List.filterMap_cons]
  cases f a <;> rfl

/-- The groups under the key list what the declarations declare under it. -/
structure Lists (ix : Index) (k : Key) (cs : List Declaration) : Prop where
  functions : ix.functions.getD k [] = cs.filterMap (Declaration.functionOf? k)
  methods : ix.methods.getD k [] = cs.filterMap (Declaration.methodOf? k)
  types : ix.types.getD k [] = cs.filterMap (Declaration.typeOf? k)
  values : ix.values.getD k [] = cs.filterMap (Declaration.valueOf? k)

/-- The step: a declaration is appended to a group of one table, and the others stay. -/
theorem Lists.add {ix : Index} {cs : List Declaration} (h : ix.Lists k cs) (c : Declaration) :
    (ix.add c).Lists k (cs ++ [c]) where
  functions := by
    rw [filterMap_concat, ← h.functions]
    cases c <;> simp [Index.add, getD_push, Declaration.functionOf?]
  methods := by
    rw [filterMap_concat, ← h.methods]
    cases c <;> simp [Index.add, getD_push, Declaration.methodOf?]
  types := by
    rw [filterMap_concat, ← h.types]
    cases c <;> simp [Index.add, getD_push, Declaration.typeOf?]
  values := by
    rw [filterMap_concat, ← h.values]
    cases c <;> simp [Index.add, getD_push, Declaration.valueOf?]

/-- The index of a program lists the declarations of the program, by induction on these. -/
theorem lists_build (p : Program) (k : Key) : (build p).Lists k p.declarations := by
  have hfold (before cs : List Declaration) (ix : Index) (h : ix.Lists k before) :
      (cs.foldl add ix).Lists k (before ++ cs) := by
    induction cs generalizing before ix with
    | nil => rwa [List.append_nil]
    | cons c cs ih =>
      rw [List.append_cons]
      exact ih _ _ (h.add c)
  exact hfold [] p.declarations {} (by constructor <;> exact Std.HashMap.getD_empty)

section
variable {p : Program} {package name : String} (here : SourceFile)

theorem function?_build_eq_none
    (h : p.declarations.filterMap (Declaration.functionOf? (package, name)) = []) :
    (build p).function? here package name = none := by
  rw [function?, (lists_build p _).functions, h]
  rfl

/-- The only function of a name is found from every file. -/
theorem function?_build_eq_some {d : Decl}
    (h : p.declarations.filterMap (Declaration.functionOf? (package, name)) = [d]) :
    (build p).function? here package name = some d := by
  rw [function?, (lists_build p _).functions, h, pick, List.find?_singleton]
  split <;> rfl

theorem isType_build_eq_false
    (h : p.declarations.filterMap (Declaration.typeOf? (package, name)) = []) :
    (build p).isType here package name = false := by
  rw [isType, type?, (lists_build p _).types, h]
  rfl

theorem value?_build_eq_none
    (h : p.declarations.filterMap (Declaration.valueOf? (package, name)) = []) :
    (build p).value? here package name = none := by
  rw [value?, (lists_build p _).values, h]
  rfl

end

end Index

end RouteCheck
