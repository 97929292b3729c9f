import RouteCheck.Flow.Explore
import Mathlib.Logic.Relation

/-!
Exploring from a worklist finds just what is reachable, in whatever order.

`Drains` is the worklist method with every choice left open: any queued state may be taken next,
and the states that follow it may be queued in any order. `Round` is one round of the loop that takes
the states in the order in which they were queued. `explore` goes through such rounds, and so is one
way to drain a queue, as long as its fuel covers everything that is ever queued.

Main statements:
  1. `Drains.mem_iff`: a drained queue has expanded the states that are reachable from it, and no
     others. So two ways to drain it expand the same states.
  2. `drains_of_rounds`, `rounds_explore`: the loop drains its queue, and with enough fuel `explore`
     comes to its end.
  3. `nodup_of_rounds`, `ends_of_rounds`: the loop expands no state twice, and if it comes to its end
     it does so from everywhere on the way.
-/

namespace RouteCheck

variable {σ : Type} {next : σ → List σ}

/-- The states that steps lead to from the states of `start`. -/
inductive Reachable (next : σ → List σ) (start : List σ) : σ → Prop
  | start {s : σ} : s ∈ start → Reachable next start s
  | step {s t : σ} : Reachable next start s → t ∈ next s → Reachable next start t

theorem Reachable.trans {start start' : List σ} (h : ∀ s ∈ start, Reachable next start' s) {s : σ}
    (hs : Reachable next start s) : Reachable next start' s := by
  induction hs with
  | start hs => exact h _ hs
  | step _ ht ih => exact .step ih ht

/-- Starting from `queue` with the states `done` already expanded, the queue can be emptied so
that in the end the states `out` are expanded. -/
inductive Drains (next : σ → List σ) : List σ → List σ → List σ → Prop
  | empty {done : List σ} : Drains next [] done done
  | known {queue rest done out : List σ} {s : σ} :
      queue.Perm (s :: rest) → s ∈ done → Drains next rest done out → Drains next queue done out
  | expand {queue rest more done out : List σ} {s : σ} :
      queue.Perm (s :: rest) → s ∉ done → more.Perm (rest ++ next s) →
      Drains next more (s :: done) out → Drains next queue done out

/-! ## What is expanded -/

theorem Drains.covers {queue done out : List σ} (h : Drains next queue done out) :
    (∀ s ∈ done, s ∈ out) ∧ ∀ s ∈ queue, s ∈ out := by
  induction h with
  | empty => exact ⟨fun _ hs => hs, fun _ hs => absurd hs List.not_mem_nil⟩
  | known hq hmem _ ih =>
    refine ⟨ih.1, fun t ht => ?_⟩
    rcases List.mem_cons.1 (hq.mem_iff.1 ht) with rfl | ht
    · exact ih.1 _ hmem
    · exact ih.2 t ht
  | expand hq _ hmore _ ih =>
    refine ⟨fun t ht => ih.1 t (List.mem_cons_of_mem _ ht), fun t ht => ?_⟩
    rcases List.mem_cons.1 (hq.mem_iff.1 ht) with rfl | ht
    · exact ih.1 _ List.mem_cons_self
    · exact ih.2 t (hmore.mem_iff.2 (List.mem_append_left _ ht))

theorem Drains.reachable {queue done out : List σ} (h : Drains next queue done out) :
    ∀ s ∈ out, s ∈ done ∨ Reachable next queue s := by
  induction h with
  | empty => exact fun _ hs => .inl hs
  | @known queue rest _ _ s hq hmem _ ih =>
    have hrest : ∀ t ∈ rest, Reachable next queue t := fun t ht =>
      .start (hq.mem_iff.2 (List.mem_cons_of_mem _ ht))
    exact fun t ht => (ih t ht).imp_right (.trans hrest)
  | @expand queue rest more done out s hq _ hmore _ ih =>
    have hs : Reachable next queue s := .start (hq.mem_iff.2 List.mem_cons_self)
    have hqueued : ∀ t ∈ more, Reachable next queue t := by
      intro t ht
      rcases List.mem_append.1 (hmore.mem_iff.1 ht) with ht | ht
      · exact .start (hq.mem_iff.2 (List.mem_cons_of_mem _ ht))
      · exact .step hs ht
    intro t ht
    rcases ih t ht with h | h
    · rcases List.mem_cons.1 h with rfl | h
      · exact .inr hs
      · exact .inl h
    · exact .inr (h.trans hqueued)

/-- The invariant of the worklist: what follows an expanded state is expanded or still queued.
In the end nothing is queued. -/
theorem Drains.closed {queue done out : List σ} (h : Drains next queue done out)
    (hinv : ∀ s ∈ done, ∀ t ∈ next s, t ∈ done ∨ t ∈ queue) : ∀ s ∈ out, ∀ t ∈ next s, t ∈ out := by
  induction h with
  | empty => exact fun s hs t ht => (hinv s hs t ht).resolve_right List.not_mem_nil
  | known hq hmem _ ih =>
    refine ih fun s hs t ht => ?_
    rcases hinv s hs t ht with h | h
    · exact .inl h
    · rcases List.mem_cons.1 (hq.mem_iff.1 h) with rfl | h
      · exact .inl hmem
      · exact .inr h
  | expand hq _ hmore _ ih =>
    refine ih fun s hs t ht => ?_
    rcases List.mem_cons.1 hs with rfl | hs
    · exact .inr (hmore.mem_iff.2 (List.mem_append_right _ ht))
    · rcases hinv s hs t ht with h | h
      · exact .inl (List.mem_cons_of_mem _ h)
      · rcases List.mem_cons.1 (hq.mem_iff.1 h) with rfl | h
        · exact .inl List.mem_cons_self
        · exact .inr (hmore.mem_iff.2 (List.mem_append_left _ h))

/-- Draining a queue expands just what is reachable from it. -/
theorem Drains.mem_iff {queue out : List σ} (h : Drains next queue [] out) {s : σ} :
    s ∈ out ↔ Reachable next queue s := by
  constructor
  · exact fun hs => (h.reachable s hs).resolve_left List.not_mem_nil
  · intro hs
    induction hs with
    | start hs => exact h.covers.2 _ hs
    | step _ ht ih => exact h.closed (fun _ hd => absurd hd List.not_mem_nil) _ ih _ ht

/-! ## Rounds -/

open Relation (ReflTransGen)

/-- A round of the loop, on the queue and the expanded states: the first queued state is dropped if
it was expanded before, and else it is expanded and what follows it is queued. -/
inductive Round (next : σ → List σ) : List σ × List σ → List σ × List σ → Prop
  | known {queue done : List σ} {s : σ} : s ∈ done → Round next (s :: queue, done) (queue, done)
  | expand {queue done : List σ} {s : σ} : s ∉ done →
      Round next (s :: queue, done) (queue ++ next s, s :: done)

/-- There is only one way to go on. -/
theorem rightUnique_round : Relator.RightUnique (Round next) := by
  intro a b c hb hc
  cases hb with
  | known h =>
    cases hc with
    | known => rfl
    | expand h' => exact absurd h h'
  | expand h =>
    cases hc with
    | known h' => exact absurd h' h
    | expand => rfl

/-- The loop expands no state twice. -/
theorem nodup_of_rounds {a b : List σ × List σ} (h : ReflTransGen (Round next) a b)
    (ha : a.2.Nodup) : b.2.Nodup := by
  induction h with
  | refl => exact ha
  | tail _ hround ih =>
    cases hround with
    | known => exact ih
    | expand h => exact List.nodup_cons.2 ⟨h, ih⟩

/-- If the loop comes to its end, it does so from everywhere on the way. -/
theorem ends_of_rounds {a b : List σ × List σ} {out : List σ}
    (h : ReflTransGen (Round next) a ([], out)) (hb : ReflTransGen (Round next) a b) :
    ReflTransGen (Round next) b ([], out) := by
  rcases hb.total_of_right_unique rightUnique_round h with h | h
  · exact h
  · -- no round follows the end
    rcases h.cases_head with rfl | ⟨_, hround, -⟩
    · exact .refl
    · exact nomatch hround

theorem drains_of_rounds {queue done out : List σ}
    (h : ReflTransGen (Round next) (queue, done) ([], out)) : Drains next queue done out := by
  generalize ha : (queue, done) = a at h
  induction h using ReflTransGen.head_induction_on generalizing queue done with
  | refl =>
    obtain ⟨rfl, rfl⟩ := Prod.mk.inj ha
    exact .empty
  | head hround _ ih =>
    cases hround with
    | known hs =>
      obtain ⟨rfl, rfl⟩ := Prod.mk.inj ha
      exact .known (.refl _) hs (ih rfl)
    | expand hs =>
      obtain ⟨rfl, rfl⟩ := Prod.mk.inj ha
      exact .expand (.refl _) hs (.refl _) (ih rfl)

/-! ## The fuel is enough -/

variable [BEq σ] [LawfulBEq σ]

/-- How many states can still be queued when `done` are expanded: all that follow the others of
`all`. -/
def unexpanded (next : σ → List σ) (all done : List σ) : Nat :=
  ((all.filter (!done.contains ·)).flatMap next).length

theorem unexpanded_cons_le {s : σ} {done : List σ} : ∀ all : List σ,
    unexpanded next all (s :: done) ≤ unexpanded next all done
  | [] => Nat.le_refl _
  | t :: all => by
    have ih : unexpanded next all (s :: done) ≤ unexpanded next all done :=
      unexpanded_cons_le all
    simp only [unexpanded, List.filter_cons, List.contains_cons] at ih ⊢
    cases t == s <;> cases done.contains t <;> simp at ih ⊢ <;> omega

/-- Expanding a state pays for queueing what follows it. -/
theorem unexpanded_cons {s : σ} {done : List σ} (hs : s ∉ done) : ∀ {all : List σ}, s ∈ all →
    unexpanded next all (s :: done) + (next s).length ≤ unexpanded next all done
  | t :: all, hmem => by
    have hle : unexpanded next all (s :: done) ≤ unexpanded next all done :=
      unexpanded_cons_le all
    by_cases hts : t = s
    · subst hts
      have hdone : done.contains t = false := by simpa using hs
      simp only [unexpanded, List.filter_cons, List.contains_cons, hdone] at hle ⊢
      simp at hle ⊢
      omega
    · have ih := unexpanded_cons hs ((List.mem_cons.1 hmem).resolve_left (Ne.symm hts))
      have hbeq : (t == s) = false := by simpa using hts
      simp only [unexpanded, List.filter_cons, List.contains_cons, hbeq, Bool.false_or] at ih ⊢
      cases done.contains t <;> simp at ih ⊢ <;> omega

/-- With fuel for all that is queued and all that can be, `explore` comes to the end of the loop. -/
theorem rounds_explore (all : List σ) (hnext : ∀ s ∈ all, ∀ t ∈ next s, t ∈ all) (fuel : Nat) :
    ∀ queue done : List σ, (∀ s ∈ queue, s ∈ all) →
      queue.length + unexpanded next all done ≤ fuel →
      ReflTransGen (Round next) (queue, done) ([], explore next fuel queue done) := by
  induction fuel with
  | zero =>
    intro queue done _ hfuel
    obtain rfl : queue = [] := List.length_eq_zero_iff.1 (by omega)
    exact .refl
  | succ fuel ih =>
    intro queue done hqueue hfuel
    match queue with
    | [] => exact .refl
    | s :: queue =>
      have hs : s ∈ all := hqueue s List.mem_cons_self
      have hrest : ∀ t ∈ queue, t ∈ all := fun t ht => hqueue t (List.mem_cons_of_mem _ ht)
      rw [List.length_cons] at hfuel
      rw [explore]
      split
      · next h =>
        exact .head (.known (by simpa using h)) (ih queue done hrest (by omega))
      · next h =>
        have hnot : s ∉ done := by simpa using h
        -- what `s` queues was counted against the states that are not expanded yet
        have hpay : unexpanded next all (s :: done) + (next s).length ≤ unexpanded next all done :=
          unexpanded_cons hnot hs
        refine .head (.expand hnot) (ih _ _ ?_ ?_)
        · intro t ht
          rcases List.mem_append.1 ht with ht | ht
          · exact hrest t ht
          · exact hnext s hs t ht
        · rw [List.length_append]
          omega

end RouteCheck
