import Mathlib.Data.Set.Card
import EntityQuery.Proofs.Repetition
import EntityQuery.Proofs.Value.Identity

/-!
# Distinct values — how many there are in a list

To tell values apart is to keep one value for each identity. So the number that is kept is the
number of identities, and it is the same for lists whose values are the same one by one, though
their doubles, for instance, may be zeros of other signs.

* **`Value.ncard_identities`** — as many values are kept as there are identities.
-/

namespace EntityQuery

namespace Value

variable {asked values : List Value}

/-- Values that have been told apart are told apart. -/
theorem nodup_identity (h : distinct asked = .ok values) : (values.map identity).Nodup := by
  obtain ⟨hkeyable, rfl⟩ := distinct_eq_ok.mp h
  rw [List.Nodup, List.pairwise_map]
  refine (pairwise_eraseDupsBy asked).imp_of_mem ?_
  intro v w hv hw hne heq
  have hw' := List.all_eq_true.mp hkeyable w (mem_of_mem_eraseDupsBy hw)
  rw [(beq_iff hw').mpr heq.symm] at hne
  cases hne

/-- Values that have been told apart have all the identities that there were. -/
theorem mem_map_identity_iff (h : distinct asked = .ok values) {i : Identity} :
    i ∈ values.map identity ↔ ∃ v ∈ asked, v.identity = i := by
  obtain ⟨hkeyable, rfl⟩ := distinct_eq_ok.mp h
  rw [List.mem_map]
  constructor
  · rintro ⟨v, hv, rfl⟩
    exact ⟨v, mem_of_mem_eraseDupsBy hv, rfl⟩
  · rintro ⟨v, hv, rfl⟩
    obtain ⟨w, hw, rfl | hvw⟩ := exists_mem_eraseDupsBy (r := fun a b : Value => a == b) hv
    · exact ⟨v, hw, rfl⟩
    · exact ⟨w, hw, ((beq_iff (List.all_eq_true.mp hkeyable v hv)).mp hvw).symm⟩

/-- **Distinct values** are as many as there are identities. -/
theorem ncard_identities (h : distinct asked = .ok values) :
    {i | ∃ v ∈ asked, v.identity = i}.ncard = values.length := by
  classical
  have hset : {i | ∃ v ∈ asked, v.identity = i} = ((values.map identity).toFinset : Set _) := by
    ext i
    rw [List.coe_toFinset, Set.mem_ofPred_eq, Set.mem_ofPred_eq, mem_map_identity_iff h]
  rw [hset, Set.ncard_coe_finset, List.toFinset_card_of_nodup (nodup_identity h), List.length_map]

/-- Lists of the same values have as many distinct ones. -/
theorem length_eraseDups_of_beq {as bs : List Value} (hkeyable : as.all keyable = true)
    (h : (as == bs) = true) : as.eraseDups.length = bs.eraseDups.length := by
  have hbs : bs.all keyable = true := by
    rw [← allKeyable_eq_all, ← allKeyable_eq_of_allSame ((allSame_eq_beq as bs).trans h),
      allKeyable_eq_all, hkeyable]
  have hidentities : as.map identity = bs.map identity := by
    rw [← identities_eq_map, ← identities_eq_map]
    exact (list_beq_iff hkeyable).mp h
  rw [← ncard_identities (distinct_eq_ok.mpr ⟨hkeyable, rfl⟩),
    ← ncard_identities (distinct_eq_ok.mpr ⟨hbs, rfl⟩)]
  congr 1
  ext i
  rw [Set.mem_ofPred_eq, Set.mem_ofPred_eq, ← List.mem_map, ← List.mem_map, hidentities]

end Value

end EntityQuery
