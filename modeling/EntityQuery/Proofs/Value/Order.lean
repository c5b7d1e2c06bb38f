import EntityQuery.Proofs.Key.Order
import EntityQuery.Proofs.Value.Consistency

/-!
# The order of values — total but for twin keys

Ordinals are compared by rank and then by what they are compared by in their rank. Keys apart, the
latter is a list of integers, their `content`, so they are in a line (`Ordinal.line`). Keys stand
behind all of this in a line of their own, which equality refines: of two keys that are twins each
comes after the other. NaN has no place in the line, and nothing else is left out.

* **`Value.order_trans`** — not after is transitive on all values that are ordered, twins included.
* **`Value.order_swap_iff`** — the outcome is turned round exactly if the values are no twins.
* **`Value.compare_total_order`** — both, of any three values that are ordered.
-/

namespace EntityQuery

/-! ## What is compared -/

/-- What lies between two bounds is a number. -/
theorem Double.isNaN_eq_false_of_within {limit : Nat} {d : Double} (h : d.within limit = true) :
    d.isNaN = false := by
  have hle : d.le (Double.ofInt limit) = true := (Bool.and_eq_true_iff.mp h).2
  rw [← Bool.not_eq_true]
  intro hnan
  rw [Double.le, Double.compare?, hnan, Bool.true_or, if_pos rfl] at hle
  cases hle

namespace Ordinal

variable {x y z : Ordinal}

/-- Whether there is a place for an ordinal: it is no NaN. -/
def isOrdered : Ordinal → Bool
  | .double d => !d.isNaN
  | _ => true

theorem doubleCmp_eq {a b : Double} (ha : a.isNaN = false) (hb : b.isNaN = false) :
    doubleCmp a b = compare a.order b.order := by
  rw [doubleCmp, Double.compare?, ha, hb]
  rfl

theorem pointCmp_eq (p q : GeoPoint) :
    pointCmp p q = (compare p.latitude.order q.latitude.order).then
      (compare p.longitude.order q.longitude.order) := by
  rw [pointCmp,
    doubleCmp_eq (Double.isNaN_eq_false_of_within p.latitude_within)
      (Double.isNaN_eq_false_of_within q.latitude_within),
    doubleCmp_eq (Double.isNaN_eq_false_of_within p.longitude_within)
      (Double.isNaN_eq_false_of_within q.longitude_within)]

/-- What an ordinal is compared by within its rank. Keys are compared otherwise. -/
def content : Ordinal → List Int
  | .null | .key _ => []
  | .integer i => [i]
  | .boolean b => [b.toNat]
  | .octets bs => bs.map fun b => b.toNat
  | .double d => [d.order]
  | .point p => [p.latitude.order, p.longitude.order]

theorem octetsCmp_eq (as bs : List UInt8) :
    octetsCmp as bs = compare (content (.octets as)) (content (.octets bs)) := by
  induction as generalizing bs with
  | nil => cases bs <;> rfl
  | cons a as ih =>
      cases bs with
      | nil => rfl
      | cons b bs =>
          have hhead : compare (a.toNat : Int) b.toNat = compare a.toNat b.toNat := by
            simp only [compare, compareOfLessAndEq, Int.ofNat_lt, Int.ofNat_inj]
          show _ = compare ((a.toNat : Int) :: content (.octets as))
            ((b.toNat : Int) :: content (.octets bs))
          rw [octetsCmp, ih, List.compare_cons_cons, hhead]

/-! ## The line -/

/-- The order of ordinals as far as it does not look into keys. -/
def line (x y : Ordinal) : Ordering :=
  (compare x.rank y.rank).then (compare x.content y.content)

instance : Std.TransCmp line :=
  inferInstanceAs (Std.TransCmp (compareLex (compareOn rank) (compareOn content)))

theorem cmp_of_rank_ne (h : x.rank ≠ y.rank) : x.cmp y = compare x.rank y.rank := by
  unfold cmp
  split
  case h_7 => rfl
  all_goals exact absurd rfl h

theorem cmp_eq_line (hx : x.isOrdered = true) (hy : y.isOrdered = true)
    (hkeys : ∀ k l, x = .key k → y ≠ .key l) : x.cmp y = line x y := by
  by_cases hrank : x.rank = y.rank
  · rw [line, hrank, Nat.compare_eq_eq.mpr rfl, Ordering.eq_then]
    cases x with
    | null =>
        cases y with
        | null => rfl
        | _ => cases hrank
    | integer a =>
        cases y with
        | integer b => simp [cmp, content]
        | _ => cases hrank
    | boolean a =>
        cases y with
        | boolean b => cases a <;> cases b <;> rfl
        | _ => cases hrank
    | octets as =>
        cases y with
        | octets bs => exact octetsCmp_eq as bs
        | _ => cases hrank
    | double a =>
        cases y with
        | double b =>
            have ha : a.isNaN = false := by simpa [isOrdered] using hx
            have hb : b.isNaN = false := by simpa [isOrdered] using hy
            simp [cmp, content, doubleCmp_eq ha hb]
        | _ => cases hrank
    | point p =>
        cases y with
        | point q => simp [cmp, content, pointCmp_eq]
        | _ => cases hrank
    | key k =>
        cases y with
        | key l => exact absurd rfl (hkeys k l rfl)
        | _ => cases hrank
  · rw [cmp_of_rank_ne hrank, line]
    have hne : compare x.rank y.rank ≠ .eq := fun h => hrank (Nat.compare_eq_eq.mp h)
    cases ho : compare x.rank y.rank with
    | eq => exact absurd ho hne
    | lt => rfl
    | gt => rfl

/-- The line sees no more than the comparison, to which two keys look alike. -/
theorem line_ne_gt (hx : x.isOrdered = true) (hy : y.isOrdered = true) (h : x.cmp y ≠ .gt) :
    line x y ≠ .gt := by
  by_cases hkeys : ∃ k l, x = .key k ∧ y = .key l
  · obtain ⟨k, l, rfl, rfl⟩ := hkeys
    show Ordering.eq ≠ .gt
    decide
  · rw [← cmp_eq_line hx hy fun k l hk hl => hkeys ⟨k, l, hk, hl⟩]
    exact h

theorem cmp_trans (hx : x.isOrdered = true) (hy : y.isOrdered = true) (hz : z.isOrdered = true)
    (hxy : x.cmp y ≠ .gt) (hyz : y.cmp z ≠ .gt) : x.cmp z ≠ .gt := by
  by_cases hkeys : ∃ k l, x = .key k ∧ z = .key l
  -- only a key can stand between two keys
  · obtain ⟨k, l, rfl, rfl⟩ := hkeys
    cases y with
    | key j => exact Key.cmp_trans hxy hyz
    | _ => exact absurd rfl hxy
  · rw [cmp_eq_line hx hz fun k l hk hl => hkeys ⟨k, l, hk, hl⟩]
    exact Std.TransCmp.le_trans (line_ne_gt hx hy hxy) (line_ne_gt hy hz hyz)

/-! ## Places -/

/-- The key that is compared, one and the same for ordinals that are no keys. -/
def keyOr : Ordinal → Key
  | .key k => k
  | _ => .root "" "" (.number 0)

/-- The line, and behind it that of keys. -/
def place (x y : Ordinal) : Ordering := (line x y).then (x.keyOr.pathOrder y.keyOr)

instance : Std.TransCmp place :=
  have := transCmp_on Key.pathOrder keyOr
  inferInstanceAs (Std.TransCmp (compareLex line fun x y => x.keyOr.pathOrder y.keyOr))

/-- **Before.** An ordinal is before another one exactly if its place is, twins or not. -/
theorem cmp_eq_lt_iff (hx : x.isOrdered = true) (hy : y.isOrdered = true) :
    x.cmp y = .lt ↔ place x y = .lt := by
  by_cases hkeys : ∃ k l, x = .key k ∧ y = .key l
  · obtain ⟨k, l, rfl, rfl⟩ := hkeys
    show k.cmp l = .lt ↔ k.pathOrder l = .lt
    rw [Key.cmp_eq]
    split
    · exact iff_of_true rfl ‹_›
    · split <;> exact iff_of_false (by decide) ‹_›
  · rw [cmp_eq_line hx hy fun k l hk hl => hkeys ⟨k, l, hk, hl⟩, place]
    cases ho : line x y with
    | lt => exact Iff.rfl
    | gt => exact Iff.rfl
    | eq =>
        -- ordinals of one rank that are not both keys have no key to be compared by
        have hrank : x.rank = y.rank := Nat.compare_eq_eq.mp (Ordering.then_eq_eq.mp ho).1
        have hkey : x.keyOr = y.keyOr := by
          cases x <;> cases y <;> first | rfl | exact absurd ⟨_, _, rfl, rfl⟩ hkeys | cases hrank
        have hself : Key.pathOrder y.keyOr y.keyOr = .eq := Std.ReflCmp.compare_self
        rw [hkey, hself]
        exact Iff.rfl

theorem rank_le_of_ne_gt (h : x.cmp y ≠ .gt) : x.rank ≤ y.rank := by
  by_contra hgt
  rw [cmp_of_rank_ne (by omega)] at h
  exact h (Nat.compare_eq_gt.mpr (by omega))

theorem rank_le_of_ne_lt (h : x.cmp y ≠ .lt) : y.rank ≤ x.rank := by
  by_contra hlt
  rw [cmp_of_rank_ne (by omega)] at h
  exact h (Nat.compare_eq_lt.mpr (by omega))

/-- Only a number is before a number. -/
theorem isOrdered_of_cmp_lt (hrank : x.rank = y.rank) (h : x.cmp y = .lt) :
    x.isOrdered = true := by
  cases x with
  | double a =>
      cases y with
      | double b =>
          show (!a.isNaN) = true
          rw [Bool.not_eq_true', ← Bool.not_eq_true]
          intro hnan
          have heq : doubleCmp a b = .eq := by rw [doubleCmp, Double.compare?, hnan]; rfl
          rw [show (Ordinal.double a).cmp (.double b) = doubleCmp a b from rfl, heq] at h
          cases h
      | _ => cases hrank
  | _ => rfl

/-- What lies between two ordinals puts them in order, even if it is a NaN itself. -/
theorem cmp_eq_lt_of_between (hy : y.isOrdered = true) (hz : z.isOrdered = true)
    (hxz : x.cmp z = .lt) (hxy : x.cmp y = .gt) : y.cmp z = .lt := by
  have hyx : y.rank ≤ x.rank := rank_le_of_ne_lt (by rw [hxy]; decide)
  have hxz' : x.rank ≤ z.rank := rank_le_of_ne_gt (by rw [hxz]; decide)
  by_cases hrank : y.rank = z.rank
  · have hx := isOrdered_of_cmp_lt (by omega) hxz
    rw [cmp_eq_lt_iff hy hz]
    refine Std.TransCmp.lt_of_isLE_of_lt ?_ ((cmp_eq_lt_iff hx hz).mp hxz)
    have hge : place x y ≠ .lt := by
      rw [Ne, ← cmp_eq_lt_iff hx hy, hxy]
      decide
    have hswap : place y x = (place x y).swap := Std.OrientedCmp.eq_swap
    rw [hswap]
    cases ho : place x y with
    | lt => exact absurd ho hge
    | _ => rfl
  · rw [cmp_of_rank_ne hrank, Nat.compare_eq_lt]
    omega

theorem cmp_ne_lt_of_lt (hx : x.isOrdered = true) (hy : y.isOrdered = true) (h : x.cmp y = .lt) :
    y.cmp x ≠ .lt := by
  have hswap : place y x = (place x y).swap := Std.OrientedCmp.eq_swap
  rw [Ne, cmp_eq_lt_iff hy hx, hswap, (cmp_eq_lt_iff hx hy).mp h]
  decide

/-- Not before is transitive. -/
theorem cmp_ne_lt_trans (hx : x.isOrdered = true) (hy : y.isOrdered = true)
    (hz : z.isOrdered = true) (hxy : x.cmp y ≠ .lt) (hyz : y.cmp z ≠ .lt) : x.cmp z ≠ .lt := by
  rw [Ne, cmp_eq_lt_iff ‹_› ‹_›] at *
  have hge : ∀ {o : Ordering}, o ≠ .lt ↔ o.isGE = true := by decide
  rw [← Ne, hge] at *
  exact Std.TransCmp.isGE_trans hxy hyz

end Ordinal

/-! ## Values -/

namespace Value

variable {a b c : Value}

/-- Whether a value has a place in the order: regions, lists and records have none, nor has NaN. -/
def isOrdered : Value → Bool
  | .double d => !d.isNaN
  | .circle _ _ | .rectangle _ _ | .list _ | .record _ => false
  | _ => true

def isNaN : Value → Bool
  | .double d => d.isNaN
  | _ => false

/-- Keys that differ only in the namespaces of the keys above them. -/
def Twins (a b : Value) : Prop := ∃ k l, a = .key k ∧ b = .key l ∧ k.Twins l

theorem ordinal_eq_ok (h : a.isOrdered = true) :
    ∃ x, a.ordinal = .ok x ∧ x.isOrdered = true := by
  cases a with
  | circle | rectangle | list | record => cases h
  | double d => exact ⟨.double d, rfl, h⟩
  | _ => exact ⟨_, rfl, rfl⟩

theorem eq_key_of_ordinal {k : Key} (h : a.ordinal = .ok (.key k)) : a = .key k := by
  cases a with
  | key l =>
      obtain rfl := Ordinal.key.inj (Except.ok.inj h)
      rfl
  | _ => cases h

theorem compare_eq_ok {x y : Ordinal} (ha : a.ordinal = .ok x) (hb : b.ordinal = .ok y) :
    compare a b = .ok (x.cmp y) := by
  rw [compare, ha, hb]
  rfl

/-- Values have been compared only if each of them has a place or is a NaN. -/
theorem isOrdered_of_compare {o : Ordering} (ha : a.isNaN = false) (hb : b.isNaN = false)
    (h : compare a b = .ok o) : a.isOrdered = true ∧ b.isOrdered = true := by
  have hordered : ∀ {v : Value} {x : Ordinal}, v.isNaN = false → v.ordinal = .ok x →
      v.isOrdered = true := by
    intro v x hnan hx
    cases v with
    | circle | rectangle | list | record => cases hx
    | double d => exact congrArg not hnan
    | _ => rfl
  obtain ⟨x, hx, h⟩ := bind_eq_ok.mp h
  obtain ⟨y, hy, -⟩ := bind_eq_ok.mp h
  exact ⟨hordered ha hx, hordered hb hy⟩

theorem compare_eq_order (ha : a.isOrdered = true) (hb : b.isOrdered = true) :
    compare a b = .ok (Comparator.order compare a b) := by
  obtain ⟨x, hx, -⟩ := ordinal_eq_ok ha
  obtain ⟨y, hy, -⟩ := ordinal_eq_ok hb
  rw [Comparator.order, compare_eq_ok hx hy]

/-- **Transitivity.** -/
theorem order_trans (ha : a.isOrdered = true) (hb : b.isOrdered = true) (hc : c.isOrdered = true)
    (hab : Comparator.order compare a b ≠ .gt) (hbc : Comparator.order compare b c ≠ .gt) :
    Comparator.order compare a c ≠ .gt := by
  obtain ⟨x, hx, hxOrdered⟩ := ordinal_eq_ok ha
  obtain ⟨y, hy, hyOrdered⟩ := ordinal_eq_ok hb
  obtain ⟨z, hz, hzOrdered⟩ := ordinal_eq_ok hc
  rw [Comparator.order, compare_eq_ok hx hy] at hab
  rw [Comparator.order, compare_eq_ok hy hz] at hbc
  rw [Comparator.order, compare_eq_ok hx hz]
  exact Ordinal.cmp_trans hxOrdered hyOrdered hzOrdered hab hbc

/-- Of two values not both are before the other one. -/
theorem order_ne_lt_of_lt (ha : a.isOrdered = true) (hb : b.isOrdered = true)
    (h : Comparator.order compare a b = .lt) : Comparator.order compare b a ≠ .lt := by
  obtain ⟨x, hx, hxOrdered⟩ := ordinal_eq_ok ha
  obtain ⟨y, hy, hyOrdered⟩ := ordinal_eq_ok hb
  rw [Comparator.order, compare_eq_ok hx hy] at h
  rw [Comparator.order, compare_eq_ok hy hx]
  exact Ordinal.cmp_ne_lt_of_lt hxOrdered hyOrdered h

/-- **Not before** is transitive, twins included. -/
theorem order_ne_lt_trans (ha : a.isOrdered = true) (hb : b.isOrdered = true)
    (hc : c.isOrdered = true) (hab : Comparator.order compare a b ≠ .lt)
    (hbc : Comparator.order compare b c ≠ .lt) : Comparator.order compare a c ≠ .lt := by
  obtain ⟨x, hx, hxOrdered⟩ := ordinal_eq_ok ha
  obtain ⟨y, hy, hyOrdered⟩ := ordinal_eq_ok hb
  obtain ⟨z, hz, hzOrdered⟩ := ordinal_eq_ok hc
  rw [Comparator.order, compare_eq_ok hx hy] at hab
  rw [Comparator.order, compare_eq_ok hy hz] at hbc
  rw [Comparator.order, compare_eq_ok hx hz]
  exact Ordinal.cmp_ne_lt_trans hxOrdered hyOrdered hzOrdered hab hbc

/-- What lies between two values, be it a NaN, puts them in order. -/
theorem order_eq_lt_of_between (hb : b.isOrdered = true) (hc : c.isOrdered = true)
    (hab : compare a b = .ok .gt) (hac : compare a c = .ok .lt) :
    Comparator.order compare b c = .lt := by
  obtain ⟨y, hy, hyOrdered⟩ := ordinal_eq_ok hb
  obtain ⟨z, hz, hzOrdered⟩ := ordinal_eq_ok hc
  obtain ⟨x, hx, -⟩ := bind_eq_ok.mp hab
  rw [compare_eq_ok hx hy, Except.ok.injEq] at hab
  rw [compare_eq_ok hx hz, Except.ok.injEq] at hac
  rw [Comparator.order, compare_eq_ok hy hz]
  exact Ordinal.cmp_eq_lt_of_between hyOrdered hzOrdered hac hab

/-- **Exchanging** two values turns the outcome round exactly if they are no twins. -/
theorem order_swap_iff (ha : a.isOrdered = true) (hb : b.isOrdered = true) :
    Comparator.order compare b a = (Comparator.order compare a b).swap ↔ ¬ Twins a b := by
  obtain ⟨x, hx, hxOrdered⟩ := ordinal_eq_ok ha
  obtain ⟨y, hy, hyOrdered⟩ := ordinal_eq_ok hb
  rw [Comparator.order, Comparator.order, compare_eq_ok hx hy, compare_eq_ok hy hx]
  show y.cmp x = (x.cmp y).swap ↔ _
  by_cases hkeys : ∃ k l, x = .key k ∧ y = .key l
  · obtain ⟨k, l, rfl, rfl⟩ := hkeys
    obtain rfl := eq_key_of_ordinal hx
    obtain rfl := eq_key_of_ordinal hy
    have htwins : Twins (.key k) (.key l) ↔ k.Twins l := by simp [Twins]
    rw [htwins]
    exact Key.cmp_swap_iff
  · have hno : ¬ Twins a b := by
      rintro ⟨k, l, rfl, rfl, -⟩
      exact hkeys ⟨k, l, (Except.ok.inj hx).symm, (Except.ok.inj hy).symm⟩
    rw [Ordinal.cmp_eq_line hxOrdered hyOrdered fun k l hk hl => hkeys ⟨k, l, hk, hl⟩,
      Ordinal.cmp_eq_line hyOrdered hxOrdered fun k l hk hl => hkeys ⟨l, k, hl, hk⟩]
    exact ⟨fun _ => hno, fun _ => Std.OrientedCmp.eq_swap⟩

/-- Of twins each comes after the other. -/
theorem order_of_twins (h : Twins a b) : Comparator.order compare a b = .gt := by
  obtain ⟨k, l, rfl, rfl, hne, hplace⟩ := h
  show k.cmp l = .gt
  rw [Key.cmp_eq, Key.pathOrder_eq_eq_iff.mpr hplace, if_neg (by decide), if_neg hne]

theorem not_twins (h : Comparator.order compare a b ≠ .gt) : ¬ Twins a b :=
  fun htwins => h (order_of_twins htwins)

/-- Values that compare as equal to one value compare as equal to each other. -/
theorem order_eq_of_eq (ha : a.isOrdered = true) (hb : b.isOrdered = true)
    (hc : c.isOrdered = true) (hab : Comparator.order compare a b = .eq)
    (hac : Comparator.order compare a c = .eq) : Comparator.order compare b c = .eq := by
  have hba : Comparator.order compare b a = .eq := by
    rw [(order_swap_iff ha hb).mpr (not_twins (by rw [hab]; decide)), hab]
    rfl
  have hca : Comparator.order compare c a = .eq := by
    rw [(order_swap_iff ha hc).mpr (not_twins (by rw [hac]; decide)), hac]
    rfl
  have hle : Comparator.order compare b c ≠ .gt :=
    order_trans hb ha hc (by rw [hba]; decide) (by rw [hac]; decide)
  have hge : Comparator.order compare c b ≠ .gt :=
    order_trans hc ha hb (by rw [hca]; decide) (by rw [hab]; decide)
  rw [(order_swap_iff hb hc).mpr (not_twins hle)] at hge
  cases ho : Comparator.order compare b c with
  | eq => rfl
  | lt => rw [ho] at hge; exact absurd rfl hge
  | gt => exact absurd ho hle

/-- **The order of values.** Any three values that are ordered are compared with one another. The
    outcome is turned round when two of them are exchanged, unless they are twins, and not after is
    transitive for all of them. -/
theorem compare_total_order (ha : a.isOrdered = true) (hb : b.isOrdered = true)
    (hc : c.isOrdered = true) :
    ∃ ab bc ac, compare a b = .ok ab ∧ compare b c = .ok bc ∧ compare a c = .ok ac
      ∧ (compare b a = .ok ab.swap ↔ ¬ Twins a b)
      ∧ (ab ≠ .gt → bc ≠ .gt → ac ≠ .gt) := by
  refine ⟨_, _, _, compare_eq_order ha hb, compare_eq_order hb hc, compare_eq_order ha hc, ?_,
    order_trans ha hb hc⟩
  rw [compare_eq_order hb ha, ← order_swap_iff ha hb, Except.ok.injEq]

/-- A text, the octet after it and a key are in order. -/
theorem compare_total_order_mixed : (text "z").isOrdered = true ∧ (bytes [0x7b]).isOrdered = true
    ∧ (key (.root "" "Task" (.name "a"))).isOrdered = true
    ∧ ∃ ab bc ac, compare (text "z") (bytes [0x7b]) = .ok ab
      ∧ compare (bytes [0x7b]) (key (.root "" "Task" (.name "a"))) = .ok bc
      ∧ compare (text "z") (key (.root "" "Task" (.name "a"))) = .ok ac
      ∧ (compare (bytes [0x7b]) (text "z") = .ok ab.swap ↔ ¬ Twins (text "z") (bytes [0x7b]))
      ∧ (ab ≠ .gt → bc ≠ .gt → ac ≠ .gt) :=
  ⟨rfl, rfl, rfl, compare_total_order rfl rfl rfl⟩

/-- A task of a project that lies in a namespace of its own. -/
def taskBelow (space : String) : Value :=
  key (.child (.root space "Project" (.number 1)) "" "Task" (.number 2))

/-- Of two tasks that differ in the namespace of their project alone each comes after the other. -/
theorem compare_twins : (taskBelow "a").isOrdered = true ∧ (taskBelow "b").isOrdered = true
    ∧ compare (taskBelow "a") (taskBelow "b") = .ok .gt
    ∧ compare (taskBelow "b") (taskBelow "a") ≠ .ok Ordering.gt.swap := by
  refine ⟨rfl, rfl, rfl, ?_⟩
  have hgt : compare (taskBelow "b") (taskBelow "a") = .ok .gt := rfl
  rw [hgt]
  decide

end Value

end EntityQuery
