import Mathlib.Data.List.Forall2

/-!
# Lists in step — elements related pair by pair

Plans and their streams, groups and their parts, predicates and their components: many things come
in lists that are gone through in step. What is needed of them is how to find the partner of an
element, by the element itself or by its place.
-/

namespace EntityQuery

variable {β γ : Type} {R : β → γ → Prop} {bs : List β} {cs : List γ}

theorem exists_forall₂ (h : ∀ b ∈ bs, ∃ c, R b c) : ∃ cs, List.Forall₂ R bs cs := by
  induction bs with
  | nil => exact ⟨[], .nil⟩
  | cons b bs ih =>
      obtain ⟨c, hc⟩ := h b List.mem_cons_self
      obtain ⟨cs, hcs⟩ := ih fun b' hb' => h b' (List.mem_cons_of_mem b hb')
      exact ⟨c :: cs, .cons hc hcs⟩

theorem exists_left_of_forall₂ (h : List.Forall₂ R bs cs) {c : γ} (hc : c ∈ cs) :
    ∃ b ∈ bs, R b c := by
  induction h with
  | nil => cases hc
  | @cons b d bs ds hbd _ ih =>
      rcases List.mem_cons.mp hc with rfl | hc
      · exact ⟨b, List.mem_cons_self, hbd⟩
      · obtain ⟨b', hb', hR⟩ := ih hc
        exact ⟨b', List.mem_cons_of_mem b hb', hR⟩

theorem exists_right_of_forall₂ (h : List.Forall₂ R bs cs) {b : β} (hb : b ∈ bs) :
    ∃ c ∈ cs, R b c :=
  exists_left_of_forall₂ h.flip hb

/-- The same place has related elements in both lists, or none in either. -/
theorem rel_getElem?_of_forall₂ (h : List.Forall₂ R bs cs) (i : Nat) :
    Option.Rel R bs[i]? cs[i]? := by
  induction h generalizing i with
  | nil => exact .none
  | cons hbc _ ih =>
      cases i with
      | zero => exact .some hbc
      | succ i => exact ih i

theorem forall₂_set (h : List.Forall₂ R bs cs) {b : β} {c : γ} (hbc : R b c) (i : Nat) :
    List.Forall₂ R (bs.set i b) (cs.set i c) := by
  induction h generalizing i with
  | nil => exact .nil
  | cons hhead htail ih =>
      cases i with
      | zero => exact .cons hbc htail
      | succ i => exact .cons hhead (ih i)

theorem forall₂_comp {α : Type} {as : List α} {Q : α → β → Prop} {T : α → γ → Prop}
    (hT : ∀ a b c, Q a b → R b c → T a c) (hQ : List.Forall₂ Q as bs) (hR : List.Forall₂ R bs cs) :
    List.Forall₂ T as cs := by
  induction hQ generalizing cs with
  | nil =>
      cases hR
      exact .nil
  | cons hab _ ih =>
      cases hR with
      | cons hbc hrest => exact .cons (hT _ _ _ hab hbc) (ih hrest)

/-- What holds on the right can be used on the way from left to right. -/
theorem forall₂_map_of_right {δ : Type} {f : γ → δ} {T : β → δ → Prop} {p : γ → Prop}
    (h : List.Forall₂ R bs cs) (hp : ∀ c ∈ cs, p c) (hT : ∀ b c, R b c → p c → T b (f c)) :
    List.Forall₂ T bs (cs.map f) := by
  induction h with
  | nil => exact .nil
  | cons hbc _ ih =>
      refine .cons (hT _ _ hbc (hp _ List.mem_cons_self)) (ih ?_)
      intro c hc
      exact hp c (List.mem_cons_of_mem _ hc)

end EntityQuery
