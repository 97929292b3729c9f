import RouteCheck.Proofs.Tree.Lexemes
import RouteCheck.Proofs.Tree.SourceRuns

/-!
The tree of a source text is the tree of a source file.

What is known of the tokens of a text is known of the nodes of its tree: names are words because
their tokens are, and what stands in brackets is a run of tokens in which brackets match.

Main statements:
  1. `LegibleAt.spelledAt`: how the parts of one node are spelled.
  2. `sourceTree_ofSource`: the tree of a source text.
-/

namespace RouteCheck.Node
open Token (scan IsWord)

/-- The nodes have the texts that the source has in their places. -/
def HasTexts (source : String) (n : Node) : Prop :=
  ∀ m ∈ n.all, m.text = String.Pos.Raw.extract source ⟨m.span.start⟩ ⟨m.span.stop⟩

/-! ## Labels -/

section
variable {source : String} {k : Nat} {n : Node} {ts : List Token}

theorem OfKind.label (h : n.OfKind ts) : (label source k n).1.OfKind ts := by
  obtain ⟨hd, cs⟩ := n
  have hall {P : Node → Prop} (hP : ∀ c k, P c → P (Node.label source k c).1)
      (hcs : ∀ c ∈ cs, P c) : ∀ c ∈ (labels source (k + 1) cs).1, P c := by
    intro c hc
    obtain ⟨c', hc', k', rfl⟩ := mem_labels cs hc
    exact hP c' k' (hcs c' hc')
  have hchildren : (Node.label source k (mk hd cs)).1.children = (labels source (k + 1) cs).1 := rfl
  revert h
  unfold OfKind
  rw [kind_label, hchildren]
  split <;> intro h
  · exact hall (fun c k hc => by rwa [kind_label]) h
  · exact hall (fun c k hc => by rwa [kind_label]) h
  · obtain ⟨p, f, hcs, hp, hf⟩ := h
    obtain rfl : cs = [p, f] := hcs
    exact ⟨_, _, rfl, inField_label.trans hp, kind_label.trans hf⟩
  · exact hall (fun c k hc => by rwa [kind_label, inField_label]) h
  · exact hall (fun c k hc => by rwa [inField_label, span_label]) h
  · exact hall (fun c k hc => by rwa [kind_label]) h
  · trivial

theorem Worded.label (h : n.Worded ts) : (label source k n).1.Worded ts := by
  rwa [Worded, kind_label, Node.IsIdentifier, span_label]

theorem LegibleAt.label (h : n.LegibleAt ts) : (label source k n).1.LegibleAt ts where
  parts := by
    obtain ⟨hd, cs⟩ := n
    intro c hc hfield
    obtain ⟨c', hc', k', rfl⟩ := mem_labels cs hc
    rw [kind_label, inField_label] at hfield
    exact (h.parts c' hc' hfield).label
  ofKind := h.ofKind.label

theorem Within.label (h : n.Within ts) : (label source k n).1.Within ts := by
  intro m hm
  obtain ⟨m', hm', k', rfl⟩ := mem_all_label hm
  exact (h m' hm').label

theorem hasTexts_label : (label source k n).1.HasTexts source := by
  intro m hm
  obtain ⟨⟨hd, cs⟩, _, k', rfl⟩ := mem_all_label hm
  rfl

end

/-! ## Texts -/

section
variable {source : String} {m n c : Node}

theorem HasTexts.child (h : n.HasTexts source) (hc : c ∈ n.children) : c.HasTexts source :=
  fun m hm => h m (mem_all_of_child hc hm)

theorem Worded.isWorded (h : n.Worded (scan source)) (htexts : n.HasTexts source) :
    n.IsWorded := by
  intro hname
  obtain ⟨t, ht, hidentifier, hspan⟩ := h hname
  rw [htexts n (self_mem_all n), hspan, Token.extract_of_mem_scan ht]
  exact Token.isWord_of_mem_scan ht (by simpa using (Bool.and_eq_true_iff.1 hidentifier).1)

/-- How the parts of a node are spelled follows from what their tokens are. -/
theorem LegibleAt.spelledAt (h : n.LegibleAt (scan source)) (htexts : n.HasTexts source) :
    n.SpelledAt where
  parts c hc hfield := (h.parts c hc hfield).isWorded (htexts.child hc)
  names := h.names
  selected hk c hc := by
    obtain ⟨p, f, hchildren, hp, hf⟩ := h.selected hk
    rw [field?, hchildren] at hc
    have hc : [f].find? (·.inField == some .selected) = some c := by simpa [hp] using hc
    rw [List.mem_singleton.1 (List.mem_of_find?_eq_some hc), hf]
  arguments hk c hc :=
    h.arguments hk c (mem_children_of_field? hc) (by simpa using List.find?_some hc)
  length hk c hc := by
    have hmem := mem_children_of_field? hc
    obtain ⟨as, has, hbracketed, htext⟩ :=
      Token.bracketed_of_enclosed (h.length hk c hmem (by simpa using List.find?_some hc))
    rw [htexts.child hmem c (self_mem_all c), htext, String.toList_ofList]
    refine ⟨hbracketed, fun hempty => has ?_⟩
    simpa using congrArg String.toList hempty

/-- The tree of a source text. -/
theorem sourceTree_ofSource (source : String) : (ofSource source).SourceTree where
  kind := kind_ofSource
  ids := nodup_ids_ofSource source
  placed := placedIn_ofSource source
  sites m hm m' hm' hsite := by
    have hbegins {m : Node} (hm : m ∈ allOf (ofSource source).children) :
        Begins (scan source) m.span := by
      obtain ⟨c, hc, hm⟩ := mem_allOf.1 hm
      exact (allFrom_ofSource source c hc m hm).1
    obtain ⟨t, ht, hspan⟩ := hbegins hm
    obtain ⟨u, hu, hspan'⟩ := hbegins hm'
    obtain ⟨hline, hcolumn⟩ := Prod.mk.inj hsite
    rw [hspan, hspan'] at hline hcolumn
    rw [start, start, hspan, hspan']
    exact Token.start_eq_of_mem_scan ht hu hline hcolumn
  formed m hm := by
    rw [all_eq] at hm
    rcases List.mem_cons.1 hm with rfl | hm
    · exact formed_of_formless (by rw [kind_ofSource]; rfl)
    · obtain ⟨c, hc, hm⟩ := mem_allOf.1 hm
      exact (allFrom_ofSource source c hc m hm).2
  below := by
    have hchildren : AllLegible (scan source) (Reader.sourceFile (scan source)).children :=
      Reader.legible_sourceFile fun _ => Token.plain_of_mem_scan
    have hfile : (Reader.sourceFile (scan source)).Legible (scan source) :=
      legible_mk rfl hchildren
    have htexts : (ofSource source).HasTexts source := hasTexts_label
    exact fun m hm => (hfile.2.label m hm).spelledAt fun c hc => htexts c (mem_all_trans hc hm)

end
end RouteCheck.Node
