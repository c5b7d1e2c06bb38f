import EntityQuery.Proofs.Sorting.Runs
import EntityQuery.Sorting.Merge

/-!
# Merges are arranged — two runs made one

However a merge goes about it, element by element or by leaps, from the front or from the back, it
arranges the elements of both runs. A leap rests on a test that, along the run that is looked
through, holds first and then no more (`leading_spec`). What is left of the two runs stays sorted,
and the last element of the leading run stays behind all of the other one, which is what allows a
merge to stop when only that element is left.

Reading from the back turns the relation round (`End.relation`), and that is the only difference.

* **`Sorting.mergeFrom_spec`** — the merge from an end.
* **`Sorting.merge_spec`** — the merge of two adjacent runs.
-/

namespace EntityQuery.Sorting

variable {ε α : Type} {E : ε → Prop} {before : α → α → Except ε Bool} {le : α → α → Prop}
  {S : α → Prop}

/-! ## How far a run leads -/

/-- The first `n` elements of a list are in `K`, and the others in `N`. -/
def Leads (K N : α → Prop) (xs : List α) (n : Nat) : Prop :=
  ∃ kept rest, xs = kept ++ rest ∧ kept.length = n ∧ (∀ a ∈ kept, K a) ∧ ∀ a ∈ rest, N a

/-- A test that holds in `K` and fails in `N` and that, along a list, holds first and then no
    more. -/
structure Separates (E : ε → Prop) (keep : α → Except ε Bool) (K N : α → Prop) (xs : List α) :
    Prop where
  test : ∀ a ∈ xs, Ends E (fun r => if r then K a else N a) (keep a)
  down : xs.Pairwise fun a b => K b → K a
  up   : xs.Pairwise fun a b => N a → N b

variable {keep : α → Except ε Bool} {K N : α → Prop} {xs : List α}

theorem Separates.sublist {ys : List α} (h : Separates E keep K N xs) (hs : ys.Sublist xs) :
    Separates E keep K N ys :=
  ⟨fun a ha => h.test a (hs.subset ha), h.down.sublist hs, h.up.sublist hs⟩

/-- Counting on behind a kept element and all that stand in front of it. -/
theorem Leads.behind {front : List α} {x : α} {more : List α} {n : Nat}
    (h : Separates E keep K N (front ++ x :: more)) (hx : K x) (hmore : Leads K N more n) :
    Leads K N (front ++ x :: more) (front.length + 1 + n) := by
  obtain ⟨kept, rest, rfl, hlen, hK, hN⟩ := hmore
  obtain ⟨-, -, hcross⟩ := List.pairwise_append.mp h.down
  refine ⟨front ++ x :: kept, rest, by simp, ?_, ?_, hN⟩
  · rw [List.length_append, List.length_cons]
    omega
  · intro a ha
    rcases List.mem_append.mp ha with ha | ha
    · exact hcross a ha x List.mem_cons_self hx
    · rcases List.mem_cons.mp ha with rfl | ha
      · exact hx
      · exact hK a ha

/-- Counting only in front of an element that is not kept. -/
theorem Leads.inFront {front : List α} {x : α} {more : List α} {n : Nat}
    (h : Separates E keep K N (front ++ x :: more)) (hx : N x) (hfront : Leads K N front n) :
    Leads K N (front ++ x :: more) n := by
  obtain ⟨kept, rest, rfl, hlen, hK, hN⟩ := hfront
  obtain ⟨-, hmore, -⟩ := List.pairwise_append.mp h.up
  refine ⟨kept, rest ++ x :: more, List.append_assoc .., hlen, hK, ?_⟩
  intro a ha
  rcases List.mem_append.mp ha with ha | ha
  · exact hN a ha
  · rcases List.mem_cons.mp ha with rfl | ha
    · exact hx
    · exact (List.pairwise_cons.mp hmore).1 a ha hx

theorem narrow_spec (e : End) (h : Separates E keep K N xs) :
    Ends E (Leads K N xs) (narrow keep e xs) := by
  induction hn : xs.length using Nat.strongRecOn generalizing xs with
  | ind n ih =>
      rw [narrow]
      split
      · rename_i hnil
        obtain rfl : xs = [] := by
          rw [List.drop_eq_nil_iff] at hnil
          cases xs with
          | nil => rfl
          | cons a as =>
              cases e <;> simp only [End.middle, List.length_cons] at hnil <;> omega
        exact Ends.ok ⟨[], [], rfl, rfl, List.forall_mem_nil _, List.forall_mem_nil _⟩
      · rename_i x more hdrop
        obtain ⟨hsplit, hmiddle⟩ := split_of_drop hdrop
        generalize e.middle xs.length = m at hsplit hmiddle ⊢
        generalize xs.take m = front at hsplit hmiddle ⊢
        subst hsplit
        subst hmiddle
        rw [List.length_append, List.length_cons] at hn
        -- the candidate in the middle tells on which side of it to look on
        refine Ends.bind (h.test x (by simp)) ?_
        intro kept hkept
        cases kept with
        | true =>
            have hmore := h.sublist
              ((List.sublist_cons_self x more).trans (List.sublist_append_right front _))
            refine Ends.bind (ih more.length (by omega) hmore rfl) ?_
            intro n hn
            exact Ends.ok (hn.behind h hkept)
        | false =>
            have hfront := h.sublist (List.sublist_append_left front _)
            refine (ih front.length (by omega) hfront rfl).mono ?_
            intro n hn
            exact hn.inFront h hkept

theorem leap_spec (e : End) (passed : Nat) (h : Separates E keep K N xs) :
    Ends E (Leads K N xs) (leap keep e passed xs) := by
  induction hn : xs.length using Nat.strongRecOn generalizing passed xs with
  | ind n ih =>
      rw [leap]
      split
      · exact narrow_spec e h
      · rename_i x more hdrop
        obtain ⟨hsplit, hpassed⟩ := split_of_drop hdrop
        generalize passed - 1 = m at hsplit hpassed ⊢
        generalize xs.take m = front at hsplit hpassed ⊢
        subst hsplit
        subst hpassed
        rw [List.length_append, List.length_cons] at hn
        refine Ends.bind (h.test x (by simp)) ?_
        intro kept hkept
        cases kept with
        | true =>
            have hmore := h.sublist
              ((List.sublist_cons_self x more).trans (List.sublist_append_right front _))
            refine Ends.bind (ih more.length (by omega) _ hmore rfl) ?_
            intro n hn
            exact Ends.ok (hn.behind h hkept)
        | false =>
            -- the first candidate that is not kept bounds what halving looks through
            refine (narrow_spec e (h.sublist (List.sublist_append_left ..))).mono ?_
            intro n hn
            exact hn.inFront h hkept

/-- **Leaps** find how many elements at the front are kept. -/
theorem leading_spec (e : End) (h : Separates E keep K N xs) :
    Ends E (Leads K N xs) (leading keep e xs) :=
  leap_spec e 0 h

/-! ## The merge from an end -/

/-- The relation as it is read from an end. -/
def End.relation (le : α → α → Prop) : End → α → α → Prop
  | .front => le
  | .back => fun a b => le b a

theorem decides_overtakes (hd : Decides E before le S) (e : End) :
    Decides E (e.overtakes before) (e.relation le) S where
  test {y x} hy hx := by
    cases e with
    | front => exact hd.test hy hx
    | back => exact hd.test hx hy
  trans ha hb hc hab hbc := by
    cases e with
    | front => exact hd.trans ha hb hc hab hbc
    | back => exact hd.trans hc hb ha hbc hab

theorem leads_spec (hd : Decides E before le S) (e : End) {x y : α} (hx : S x) (hy : S y) :
    Ends E (fun r => if r then e.relation le x y else e.relation le y x)
      (e.leads before x y) := by
  have h := (decides_overtakes hd e).test hy hx
  rw [End.leads]
  cases ho : e.overtakes before y x with
  | error f =>
      rw [ho] at h
      exact h
  | ok r =>
      rw [ho] at h
      cases r with
      | false => exact h
      | true => exact h

/-- Along a run, an element leads another one first and then no more. -/
theorem separates_leads (hd : Decides E before le S) (e : End) {y : α} (hy : S y)
    (hS : ∀ a ∈ xs, S a) (hsorted : xs.Pairwise (e.relation le)) :
    Separates E (fun z => e.leads before z y) (fun z => e.relation le z y)
      (fun z => e.relation le y z) xs where
  test a ha := leads_spec hd e (hS a ha) hy
  down := hsorted.imp_of_mem fun ha hb hab hby =>
    (decides_overtakes hd e).trans (hS _ ha) (hS _ hb) hy hab hby
  up := hsorted.imp_of_mem fun ha hb hab hya =>
    (decides_overtakes hd e).trans hy (hS _ ha) (hS _ hb) hya hab

/-- Along a run, an element overtakes another one first and then no more. -/
theorem separates_overtakes (hd : Decides E before le S) (e : End) {x : α} (hx : S x)
    (hS : ∀ a ∈ xs, S a) (hsorted : xs.Pairwise (e.relation le)) :
    Separates E (fun z => e.overtakes before z x) (fun z => e.relation le z x)
      (fun z => e.relation le x z) xs where
  test a ha := (decides_overtakes hd e).test (hS a ha) hx
  down := hsorted.imp_of_mem fun ha hb hab hbx =>
    (decides_overtakes hd e).trans (hS _ ha) (hS _ hb) hx hab hbx
  up := hsorted.imp_of_mem fun ha hb hab hxa =>
    (decides_overtakes hd e).trans hx (hS _ ha) (hS _ hb) hxa hab

/-- Along a run that is read from the back: what of it is before an element, and what is behind. -/
theorem leading_back_spec (hd : Decides E before le S) {x : α} (hx : S x) (hS : ∀ a ∈ xs, S a)
    (hsorted : xs.Pairwise le) :
    Ends E (fun n => ∃ right finish, xs = right ++ finish ∧ xs.length - n = right.length
        ∧ (∀ a ∈ right, le a x) ∧ ∀ a ∈ finish, le x a)
      (leading (fun z => End.back.leads before z x) .back xs.reverse) := by
  have hback : xs.reverse.Pairwise (End.back.relation le) := List.pairwise_reverse.mpr hsorted
  refine (leading_spec .back (separates_leads hd .back hx
    (fun a ha => hS a (List.mem_reverse.mp ha)) hback)).mono ?_
  rintro n ⟨kept, rest, hrev, rfl, hkept, hrest⟩
  refine ⟨rest.reverse, kept.reverse, ?_, ?_, ?_, ?_⟩
  · rw [← List.reverse_append, ← hrev, List.reverse_reverse]
  · have hlength := congrArg List.length hrev
    rw [List.length_reverse, List.length_append] at hlength
    rw [List.length_reverse]
    omega
  · exact fun a ha => hrest a (List.mem_reverse.mp ha)
  · exact fun a ha => hkept a (List.mem_reverse.mp ha)

/-- Two runs that can be merged from an end: both are sorted, and the last element of the leading
    one is behind all of the other. -/
structure Mergeable (S : α → Prop) (R : α → α → Prop) (xs ys : List α) : Prop where
  leaders  : xs.Pairwise R
  yielders : ys.Pairwise R
  last     : ∀ x ∈ xs.getLast?, ∀ y ∈ ys, R y x
  inLeft   : ∀ x ∈ xs, S x
  inRight  : ∀ y ∈ ys, S y

namespace Mergeable

variable {R : α → α → Prop} {ys : List α}

theorem dropLeft (h : Mergeable S R xs ys) (n : Nat) : Mergeable S R (xs.drop n) ys where
  leaders := h.leaders.sublist (List.drop_sublist n xs)
  yielders := h.yielders
  last x hx := by
    refine h.last x ?_
    rw [List.getLast?_drop] at hx
    split at hx
    · cases hx
    · exact hx
  inLeft x hx := h.inLeft x (List.mem_of_mem_drop hx)
  inRight := h.inRight

theorem dropRight (h : Mergeable S R xs ys) (n : Nat) : Mergeable S R xs (ys.drop n) where
  leaders := h.leaders
  yielders := h.yielders.sublist (List.drop_sublist n ys)
  last x hx y hy := h.last x hx y (List.mem_of_mem_drop hy)
  inLeft := h.inLeft
  inRight y hy := h.inRight y (List.mem_of_mem_drop hy)

/-- One run is used up, or only the last element of the leading one is left. -/
theorem settled (h : Mergeable S R xs ys) (hs : isSettled xs ys = true) :
    Arranges R (xs + ys) (ys ++ xs) := by
  refine ((arranges_self h.yielders).append (arranges_self h.leaders) ?_).congr (add_comm _ _)
  intro y hy x hx
  rcases xs with _ | ⟨x', _ | ⟨x'', xs⟩⟩
  · cases hx
  · obtain rfl := List.mem_singleton.mp (Multiset.mem_coe.mp hx)
    exact h.last x rfl y hy
  · cases ys with
    | nil => cases hy
    | cons => cases hs

end Mergeable

/-- One turn of a merge: the elements of one run that lead the first one of the other run, then that
    one, and then what a merge makes of the rest. -/
theorem turn_spec (hd : Decides E before le S) (e : End) {run others : List α} {p : α} {n : Nat}
    {r : Except ε (List α × Nat)} (hrun : run.Pairwise (e.relation le))
    (hp : (p :: others).Pairwise (e.relation le)) (hS : ∀ a ∈ run, S a)
    (hSp : ∀ a ∈ p :: others, S a)
    (hn : Leads (fun z => e.relation le z p) (fun z => e.relation le p z) run n)
    (hr : Ends E (fun out => Arranges (e.relation le) (run.drop n + others) out.1) r) :
    Ends E (fun out => Arranges (e.relation le) (run + (p :: others : List α)) out.1)
      (do return ahead (run.take n ++ [p]) (← r)) := by
  obtain ⟨kept, rest, rfl, rfl, hK, hN⟩ := hn
  rw [List.drop_left] at hr
  rw [List.take_left]
  obtain ⟨hkept, -, hcross⟩ := List.pairwise_append.mp hrun
  obtain ⟨hp, -⟩ := List.pairwise_cons.mp hp
  refine Ends.bind hr ?_
  intro out hout
  have hfront : Arranges (e.relation le) (kept + {p}) (kept ++ [p]) := by
    refine (arranges_self hkept).append (.single p) ?_
    simpa only [Multiset.mem_singleton, forall_eq, Multiset.mem_coe] using hK
  refine Ends.ok ((hfront.append hout (forall_mem_add.mpr ⟨?_, ?_⟩)).congr ?_)
  · intro a ha
    refine forall_mem_add.mpr ⟨fun b hb => hcross a ha b hb, fun b hb => ?_⟩
    exact (decides_overtakes hd e).trans (hS a (List.mem_append_left rest ha))
      (hSp p List.mem_cons_self) (hSp b (List.mem_cons_of_mem p hb)) (hK a ha) (hp b hb)
  · simp only [Multiset.mem_singleton, forall_eq]
    exact forall_mem_add.mpr ⟨hN, hp⟩
  · rw [coe_append, coe_cons]
    ac_rfl

/-- No element leads one that is before the first. -/
theorem leads_none (hd : Decides E before le S) (e : End) {x y : α} (hx : ∀ a ∈ x :: xs, S a)
    (hy : S y) (hsorted : (x :: xs).Pairwise (e.relation le)) (hyx : e.relation le y x) :
    Leads (fun z => e.relation le z y) (fun z => e.relation le y z) (x :: xs) 0 := by
  refine ⟨[], x :: xs, rfl, rfl, List.forall_mem_nil _, List.forall_mem_cons.mpr ⟨hyx, ?_⟩⟩
  intro a ha
  exact (decides_overtakes hd e).trans hy (hx x List.mem_cons_self)
    (hx a (List.mem_cons_of_mem x ha)) hyx ((List.pairwise_cons.mp hsorted).1 a ha)

/-- What is left of settled runs is taken as it stands. -/
theorem mergeFrom_settled {e : End} {pace : Pace} {patience : Nat} {xs ys : List α}
    (h : isSettled xs ys = true) :
    mergeFrom before e pace patience xs ys = .ok (ys ++ xs, patience) := by
  rcases xs with _ | ⟨x, _ | ⟨x', xs⟩⟩
  · rw [mergeFrom]
    intro x x' xs y ys heq
    cases heq
  · rw [mergeFrom]
    intro x x' xs y ys heq
    cases heq
  · cases ys with
    | nil =>
        rw [mergeFrom]
        intro x x' xs y ys _ heq
        cases heq
    | cons => cases h

/-- Of runs that are not settled, the leading one has two elements and the other has one. -/
theorem exists_cons_of_not_settled {xs ys : List α} (h : ¬ isSettled xs ys = true) :
    ∃ x x' xs' y ys', xs = x :: x' :: xs' ∧ ys = y :: ys' := by
  rcases xs with _ | ⟨x, _ | ⟨x', xs⟩⟩
  · exact absurd rfl h
  · exact absurd rfl h
  · cases ys with
    | nil => exact absurd rfl h
    | cons y ys => exact ⟨x, x', xs, y, ys, rfl, rfl⟩

/-- **Merging** from an end. The induction is on how many elements are left. -/
theorem mergeFrom_spec (hd : Decides E before le S) (e : End) (pace : Pace) (patience : Nat)
    {xs ys : List α} (h : Mergeable S (e.relation le) xs ys) :
    Ends E (fun out => Arranges (e.relation le) (xs + ys) out.1)
      (mergeFrom before e pace patience xs ys) := by
  induction hn : xs.length + ys.length using Nat.strongRecOn generalizing pace patience xs ys with
  | ind n ih =>
      by_cases hsettled : isSettled xs ys = true
      · rw [mergeFrom_settled hsettled]
        exact Ends.ok (h.settled hsettled)
      · obtain ⟨x, x', xs, y, ys, rfl, rfl⟩ := exists_cons_of_not_settled hsettled
        have hSx : S x := h.inLeft x List.mem_cons_self
        have hSy : S y := h.inRight y List.mem_cons_self
        simp only [List.length_cons] at hn
        -- what is merged after a turn, in which `k` leaders or `k` yielders came first
        have hleft : ∀ k pace patience,
            Ends E (fun out => Arranges (e.relation le) ((x :: x' :: xs).drop k + ys) out.1)
              (mergeFrom before e pace patience ((x :: x' :: xs).drop k) ys) := by
          intro k pace patience
          refine ih _ ?_ pace patience ((h.dropRight 1).dropLeft k) rfl
          simp only [List.length_drop, List.length_cons]
          omega
        have hright : ∀ k pace patience,
            Ends E (fun out => Arranges (e.relation le) ((y :: ys).drop k + (x' :: xs : List α))
                out.1)
              (mergeFrom before e pace patience (x' :: xs) ((y :: ys).drop k)) := by
          intro k pace patience
          rw [add_comm]
          refine ih _ ?_ pace patience ((h.dropLeft 1).dropRight k) rfl
          simp only [List.length_drop, List.length_cons]
          omega
        cases pace with
        | steps m k =>
            rw [mergeFrom]
            refine Ends.bind ((decides_overtakes hd e).test hSy hSx) ?_
            intro first hfirst
            cases first with
            | true =>
                exact turn_spec hd e h.leaders h.yielders h.inLeft h.inRight
                  (leads_none hd e h.inLeft hSy h.leaders hfirst) (hleft 0 _ _)
            | false =>
                rw [add_comm]
                exact turn_spec hd e h.yielders h.leaders h.inRight h.inLeft
                  (leads_none hd e h.inRight hSx h.yielders hfirst) (hright 0 _ _)
        | leaps turn =>
            rw [mergeFrom]
            dsimp only
            split
            · refine Ends.bind
                (leading_spec e (separates_leads hd e hSy h.inLeft h.leaders)) ?_
              intro k hk
              exact turn_spec hd e h.leaders h.yielders h.inLeft h.inRight hk (hleft k _ _)
            · rw [add_comm]
              refine Ends.bind
                (leading_spec e (separates_overtakes hd e hSx h.inRight h.yielders)) ?_
              intro k hk
              exact turn_spec hd e h.yielders h.leaders h.inRight h.inLeft hk (hright k _ _)

/-! ## The merge of adjacent runs -/

/-- Two adjacent runs, and what of them can stay where it is: the start of the first one comes
    before all of the second, and the end of the second one after all of the first. -/
structure Trimmed (S : α → Prop) (le : α → α → Prop) (start left right finish : List α) : Prop where
  first    : (start ++ left).Pairwise le
  second   : (right ++ finish).Pairwise le
  starts   : ∀ a ∈ start, ∀ b ∈ right ++ finish, le a b
  finishes : ∀ a ∈ start ++ left, ∀ b ∈ finish, le a b
  inLeft   : ∀ a ∈ left, S a
  inRight  : ∀ a ∈ right, S a

namespace Trimmed

variable {start left right finish : List α} {x y : α}

theorem lefts (h : Trimmed S le start left right finish) : left.Pairwise le :=
  (List.pairwise_append.mp h.first).2.1

theorem rights (h : Trimmed S le start left right finish) : right.Pairwise le :=
  (List.pairwise_append.mp h.second).1

/-- What is arranged in the middle is arranged with what has stayed around it. -/
theorem around (h : Trimmed S le start left right finish) {middle : List α}
    (hmiddle : Arranges le (left + right) middle) :
    Arranges le ((start ++ left : List α) + (right ++ finish : List α))
      (start ++ middle ++ finish) := by
  obtain ⟨hstart, -, hleft⟩ := List.pairwise_append.mp h.first
  obtain ⟨-, hfinish, hright⟩ := List.pairwise_append.mp h.second
  refine (((arranges_self hstart).append hmiddle ?_).append (arranges_self hfinish) ?_).congr ?_
  · intro a ha
    refine forall_mem_add.mpr ⟨hleft a ha, ?_⟩
    intro b hb
    exact h.starts a ha b (List.mem_append_left finish hb)
  · refine forall_mem_add.mpr ⟨?_, forall_mem_add.mpr ⟨?_, hright⟩⟩
    · intro a ha
      exact h.finishes a (List.mem_append_left left ha)
    · intro a ha
      exact h.finishes a (List.mem_append_right start ha)
  · simp only [coe_append]
    ac_rfl

/-- Trimming looks at the first element of the second run and at the last one of the first. -/
theorem of_ends (hd : Decides E before le S) {ys : List α}
    (hfirst : (start ++ (left ++ [x])).Pairwise le) (hsecond : (right ++ finish).Pairwise le)
    (hSfirst : ∀ a ∈ start ++ (left ++ [x]), S a) (hSsecond : ∀ a ∈ right ++ finish, S a)
    (hhead : right ++ finish = y :: ys) (hstart : ∀ a ∈ start, le a y)
    (hfinish : ∀ a ∈ finish, le x a) : Trimmed S le start (left ++ [x]) right finish where
  first := hfirst
  second := hsecond
  starts a ha b hb := by
    have hSa := hSfirst a (List.mem_append_left _ ha)
    have hSb := hSsecond b hb
    rw [hhead] at hsecond hSsecond hb
    rcases List.mem_cons.mp hb with rfl | hb
    · exact hstart a ha
    · exact hd.trans hSa (hSsecond y List.mem_cons_self) hSb (hstart a ha)
        ((List.pairwise_cons.mp hsecond).1 b hb)
  finishes a ha b hb := by
    have hSb := hSsecond b (List.mem_append_right right hb)
    rw [← List.append_assoc] at hfirst hSfirst ha
    rcases List.mem_append.mp ha with ha | ha
    · have hax := (List.pairwise_append.mp hfirst).2.2 a ha x (List.mem_singleton_self x)
      exact hd.trans (hSfirst a (List.mem_append_left _ ha))
        (hSfirst x (List.mem_append_right _ (List.mem_singleton_self x))) hSb hax (hfinish b hb)
    · obtain rfl := List.mem_singleton.mp ha
      exact hfinish b hb
  inLeft a ha := hSfirst a (List.mem_append_right start ha)
  inRight a ha := hSsecond a (List.mem_append_left finish ha)

/-- The merge from the front: the first element of the second run comes first. -/
theorem front_spec (hd : Decides E before le S) (patience : Nat) {others : List α}
    (h : Trimmed S le start left (y :: others) finish) (hleft : ∀ a ∈ left, le y a)
    (hlast : ∀ x ∈ left.getLast?, ∀ b ∈ others, le b x) :
    Ends E (fun out => Arranges le
        ((start ++ left : List α) + (y :: others ++ finish : List α)) out.1)
      (do
        let (merged, patience) ← mergeFrom before .front (.steps 0 0) patience left others
        return (start ++ y :: merged ++ finish, patience)) := by
  obtain ⟨hothers, hsorted⟩ := List.pairwise_cons.mp h.rights
  have hm : Mergeable S (End.front.relation le) left others :=
    ⟨h.lefts, hsorted, hlast, h.inLeft, fun a ha => h.inRight a (List.mem_cons_of_mem y ha)⟩
  refine Ends.bind (mergeFrom_spec hd .front (.steps 0 0) patience hm) ?_
  rintro ⟨merged, patience⟩ hmerged
  refine Ends.ok (h.around ((hmerged.cons ?_).congr ?_))
  · exact forall_mem_add.mpr ⟨hleft, hothers⟩
  · rw [coe_cons]
    ac_rfl

/-- The merge from the back: the last element of the first run comes last. -/
theorem back_spec (hd : Decides E before le S) (patience : Nat) {others : List α}
    (h : Trimmed S le start (left ++ [x]) (y :: others) finish) (hleft : ∀ a ∈ left, le y a)
    (hright : ∀ b ∈ y :: others, le b x) :
    Ends E (fun out => Arranges le
        ((start ++ (left ++ [x]) : List α) + (y :: others ++ finish : List α)) out.1)
      (do
        let (merged, patience) ←
          mergeFrom before .back (.steps 0 0) patience (y :: others).reverse left.reverse
        return (start ++ merged.reverse ++ x :: finish, patience)) := by
  obtain ⟨hlefts, -, hx⟩ := List.pairwise_append.mp h.lefts
  have hm : Mergeable S (End.back.relation le) (y :: others).reverse left.reverse := by
    refine ⟨List.pairwise_reverse.mpr h.rights, List.pairwise_reverse.mpr hlefts, ?_, ?_, ?_⟩
    · intro z hz a ha
      rw [List.getLast?_reverse] at hz
      obtain rfl : y = z := Option.some.inj hz
      exact hleft a (List.mem_reverse.mp ha)
    · intro a ha
      exact h.inRight a (List.mem_reverse.mp ha)
    · intro a ha
      exact h.inLeft a (List.mem_append_left [x] (List.mem_reverse.mp ha))
  refine Ends.bind (mergeFrom_spec hd .back (.steps 0 0) patience hm) ?_
  rintro ⟨merged, patience⟩ hmerged
  rw [Multiset.coe_reverse, Multiset.coe_reverse] at hmerged
  have hmiddle : Arranges le ((left ++ [x] : List α) + (y :: others : List α))
      (merged.reverse ++ [x]) := by
    refine (hmerged.reverse.append (.single x) ?_).congr ?_
    · intro a ha b hb
      obtain rfl := Multiset.mem_singleton.mp hb
      rcases Multiset.mem_add.mp ha with ha | ha
      · exact hright a ha
      · exact hx a ha b (List.mem_singleton_self b)
    · show (y :: others : Multiset α) + left + {x} = left + {x} + (y :: others : Multiset α)
      ac_rfl
  have hrows : start ++ merged.reverse ++ x :: finish
      = start ++ (merged.reverse ++ [x]) ++ finish := by
    simp only [List.append_assoc, List.singleton_append]
  refine Ends.ok ?_
  rw [hrows]
  exact h.around hmiddle

end Trimmed

/-- **Merging** two adjacent runs. -/
theorem merge_spec (hd : Decides E before le S) (patience : Nat) {first second : List α}
    (hfirst : first.Pairwise le) (hsecond : second.Pairwise le) (hSfirst : ∀ a ∈ first, S a)
    (hSsecond : ∀ a ∈ second, S a) :
    Ends E (fun out => Arranges le (first + second) out.1)
      (merge before patience first second) := by
  cases second with
  | nil => exact Ends.ok ((arranges_self hfirst).congr (add_zero _).symm)
  | cons y ys =>
      have hSy : S y := hSsecond y List.mem_cons_self
      rw [merge]
      refine Ends.bind (leading_spec .front (separates_leads hd .front hSy hSfirst hfirst)) ?_
      rintro n ⟨start, left, rfl, rfl, hstart, hleft⟩
      rw [List.take_left, List.drop_left]
      cases hlast : left.getLast? with
      | none =>
          -- all of the first run is before the second one
          obtain rfl := List.getLast?_eq_none_iff.mp hlast
          rw [List.append_nil] at hfirst hSfirst ⊢
          refine Ends.ok ((arranges_self hfirst).append (arranges_self hsecond) ?_)
          intro a ha b hb
          rcases List.mem_cons.mp hb with rfl | hb
          · exact hstart a ha
          · exact hd.trans (hSfirst a ha) hSy (hSsecond b (List.mem_cons_of_mem y hb))
              (hstart a ha) ((List.pairwise_cons.mp hsecond).1 b hb)
      | some x =>
          obtain ⟨init, rfl⟩ := List.getLast?_eq_some_iff.mp hlast
          have hSx : S x := hSfirst x (by simp)
          dsimp only
          rw [hlast]
          refine Ends.bind (leading_back_spec hd hSx hSsecond hsecond) ?_
          rintro m ⟨right, finish, hsplit, hlen, hright, hfinish⟩
          rw [hlen]
          rw [hsplit] at hsecond hSsecond ⊢
          rw [List.take_left, List.drop_left]
          have htrim : Trimmed S le start (init ++ [x]) right finish :=
            .of_ends hd hfirst hsecond hSfirst hSsecond hsplit.symm hstart hfinish
          cases right with
          | nil =>
              refine Ends.ok ((arranges_self hfirst).append (arranges_self hsecond) ?_)
              exact htrim.finishes
          | cons y' others =>
              obtain rfl : y = y' := List.head_eq_of_cons_eq hsplit
              dsimp only
              split
              · refine htrim.front_spec hd patience hleft ?_
                intro z hz b hb
                rw [hlast] at hz
                obtain rfl : x = z := Option.some.inj hz
                exact hright b (List.mem_cons_of_mem y hb)
              · rw [List.dropLast_concat]
                exact htrim.back_spec hd patience
                  (fun a ha => hleft a (List.mem_append_left [x] ha)) hright

end EntityQuery.Sorting
