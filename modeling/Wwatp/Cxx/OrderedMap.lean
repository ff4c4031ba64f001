import Mathlib

/-! Walking a `std::map` backwards from `upper_bound`. The walk sees the keys in
descending order, so a loop that stops at the first entry failing a test sees
exactly the entries with no failing entry between them and its start. -/
namespace Cxx

/-- In an ordered list, the initial run of elements passing a test consists of
those before which every element passes. -/
theorem mem_takeWhile_iff {α : Type} {r : α → α → Prop} (hAsymm : ∀ a b, r a b → ¬ r b a)
    {l : List α} (hOrdered : l.Pairwise r) (p : α → Bool) (x : α) :
    x ∈ l.takeWhile p ↔ x ∈ l ∧ p x ∧ ∀ y ∈ l, r y x → p y := by
  induction l with
  | nil => simp
  | cons a rest ih =>
      obtain ⟨hFirst, hRest⟩ := List.pairwise_cons.mp hOrdered
      by_cases ha : p a
      · rw [List.takeWhile_cons_of_pos ha, List.mem_cons, ih hRest]
        constructor
        · rintro (rfl | ⟨hMem, hx, hBefore⟩)
          · refine ⟨by simp, ha, fun y hy hLess => ?_⟩
            rcases List.mem_cons.mp hy with rfl | hy
            · exact ha
            · exact absurd hLess (hAsymm _ _ (hFirst y hy))
          · refine ⟨by simp [hMem], hx, fun y hy hLess => ?_⟩
            rcases List.mem_cons.mp hy with rfl | hy
            · exact ha
            · exact hBefore y hy hLess
        · rintro ⟨hMem, hx, hBefore⟩
          rcases List.mem_cons.mp hMem with rfl | hMem
          · exact .inl rfl
          · exact .inr ⟨hMem, hx, fun y hy => hBefore y (by simp [hy])⟩
      · rw [List.takeWhile_cons_of_neg ha]
        simp only [List.not_mem_nil, false_iff]
        rintro ⟨hMem, hx, hBefore⟩
        rcases List.mem_cons.mp hMem with rfl | hMem
        · exact ha hx
        · exact ha (hBefore a (by simp) (hFirst x hMem))

/-- A walk that visits every element with results collects all the results. -/
theorem flatMap_takeWhile {α β : Type} {r : α → α → Prop} (hAsymm : ∀ a b, r a b → ¬ r b a)
    {l : List α} (hOrdered : l.Pairwise r) {p : α → Bool} {f : α → List β}
    (h : ∀ x ∈ l, f x ≠ [] → x ∈ l.takeWhile p) : (l.takeWhile p).flatMap f = l.flatMap f := by
  induction l with
  | nil => rfl
  | cons a rest ih =>
      obtain ⟨hFirst, hRest⟩ := List.pairwise_cons.mp hOrdered
      by_cases ha : p a
      · rw [List.takeWhile_cons_of_pos ha] at h ⊢
        rw [List.flatMap_cons, List.flatMap_cons, ih hRest fun x hx hf => ?_]
        rcases List.mem_cons.mp (h x (by simp [hx]) hf) with rfl | hMem
        · exact absurd (hFirst x hx) fun hSelf => hAsymm x x hSelf hSelf
        · exact hMem
      · rw [List.takeWhile_cons_of_neg ha] at h ⊢
        symm
        rw [List.flatMap_nil, List.flatMap_eq_nil_iff]
        intro x hx
        by_contra hf
        exact absurd (h x hx hf) List.not_mem_nil

theorem flatMap_filter_of_ne_nil {α β : Type} {l : List α} {q : α → Bool} {f : α → List β}
    (h : ∀ x ∈ l, f x ≠ [] → q x) : (l.filter q).flatMap f = l.flatMap f := by
  induction l with
  | nil => rfl
  | cons a rest ih =>
      rw [List.forall_mem_cons] at h
      cases hq : q a with
      | true => rw [List.filter_cons_of_pos hq, List.flatMap_cons, List.flatMap_cons, ih h.2]
      | false =>
          have ha : f a = [] := by
            by_contra hf
            exact absurd (h.1 hf) (by simp [hq])
          rw [List.filter_cons_of_neg (by simp [hq]), List.flatMap_cons, ha, List.nil_append, ih h.2]

section OrderedMap

variable {K V : Type} [Ord K] [Std.TransOrd K] [Std.LawfulEqOrd K]

/-- The entries from just before `upper_bound(key)` back to `begin()`. -/
def entriesUpTo (m : Std.ExtTreeMap K V) (key : K) : List (K × V) :=
  (m.toList.filter fun entry => (compare entry.1 key).isLE).reverse

theorem mem_entriesUpTo {m : Std.ExtTreeMap K V} {key : K} {entry : K × V} :
    entry ∈ entriesUpTo m key ↔ m[entry.1]? = some entry.2 ∧ (compare entry.1 key).isLE := by
  rw [entriesUpTo, List.mem_reverse, List.mem_filter, ← Std.ExtTreeMap.mem_toList_iff_getElem?_eq_some]

omit [Std.LawfulEqOrd K] in
theorem entriesUpTo_descending (m : Std.ExtTreeMap K V) (key : K) :
    (entriesUpTo m key).Pairwise fun a b => compare b.1 a.1 = .lt := by
  rw [entriesUpTo, List.pairwise_reverse]
  exact Std.ExtTreeMap.ordered_keys_toList.filter _

omit [Std.LawfulEqOrd K] in
private theorem descending_asymm (a b : K × V) (h : compare b.1 a.1 = .lt) :
    ¬ compare a.1 b.1 = .lt := by
  intro hMore
  rw [← Std.OrientedCmp.gt_iff_lt, hMore] at h
  cases h

/-- The entry before `upper_bound(key)` has the largest of the keys up to `key`. -/
theorem head?_entriesUpTo {m : Std.ExtTreeMap K V} {key : K} {entry : K × V} :
    (entriesUpTo m key).head? = some entry ↔
      m[entry.1]? = some entry.2 ∧ (compare entry.1 key).isLE ∧
        ∀ other ∈ m, (compare other key).isLE → ¬ compare entry.1 other = .lt := by
  have hOrdered := entriesUpTo_descending m key
  constructor
  · intro hHead
    obtain ⟨rest, hList⟩ := List.head?_eq_some_iff.mp hHead
    have hFirst : entry ∈ entriesUpTo m key := hList ▸ List.mem_cons_self
    obtain ⟨hStored, hLe⟩ := mem_entriesUpTo.mp hFirst
    refine ⟨hStored, hLe, fun other hOther hOtherLe hLess => ?_⟩
    have hMem : (other, m[other]) ∈ entriesUpTo m key :=
      mem_entriesUpTo.mpr ⟨Std.ExtTreeMap.getElem?_eq_some_getElem hOther, hOtherLe⟩
    rw [hList] at hMem hOrdered
    rcases List.mem_cons.mp hMem with rfl | hRest
    · simp at hLess
    · exact descending_asymm _ _ hLess ((List.pairwise_cons.mp hOrdered).1 _ hRest)
  · rintro ⟨hStored, hLe, hLast⟩
    have hMem : entry ∈ entriesUpTo m key := mem_entriesUpTo.mpr ⟨hStored, hLe⟩
    cases hList : entriesUpTo m key with
    | nil => rw [hList] at hMem; cases hMem
    | cons first rest =>
        rw [hList] at hMem hOrdered
        rcases List.mem_cons.mp hMem with rfl | hRest
        · rfl
        · obtain ⟨hFirst, hFirstLe⟩ := mem_entriesUpTo.mp (hList ▸ List.mem_cons_self :
            first ∈ entriesUpTo m key)
          have hIn : first.1 ∈ m := Std.ExtTreeMap.mem_iff_isSome_getElem?.mpr (Option.isSome_of_eq_some hFirst)
          exact absurd ((List.pairwise_cons.mp hOrdered).1 _ hRest) (hLast _ hIn hFirstLe)

/-- A backward walk that stops at the first failing entry reaches an entry
exactly when every entry from it up to the start of the walk passes. -/
theorem mem_takeWhile_entriesUpTo {m : Std.ExtTreeMap K V} {key : K} {p : K × V → Bool}
    {entry : K × V} :
    entry ∈ (entriesUpTo m key).takeWhile p ↔
      m[entry.1]? = some entry.2 ∧ (compare entry.1 key).isLE ∧
        ∀ between, m[between.1]? = some between.2 → (compare entry.1 between.1).isLE →
          (compare between.1 key).isLE → p between := by
  rw [mem_takeWhile_iff descending_asymm (entriesUpTo_descending m key), mem_entriesUpTo, and_assoc]
  refine and_congr_right fun hEntry => and_congr_right fun hLe => ?_
  constructor
  · rintro ⟨hp, hBefore⟩ between hMem hAfter hBound
    by_cases hEq : compare entry.1 between.1 = .eq
    · have hKey : entry.1 = between.1 := Std.LawfulEqCmp.eq_of_compare hEq
      have hValue : entry.2 = between.2 := by
        rw [← hKey, hEntry] at hMem
        exact Option.some.inj hMem
      rwa [← Prod.ext hKey hValue]
    · apply hBefore between (mem_entriesUpTo.mpr ⟨hMem, hBound⟩)
      cases hCompare : compare entry.1 between.1 <;> simp_all
  · intro hBetween
    refine ⟨hBetween entry hEntry ?_ hLe, fun y hy hLess => ?_⟩
    · simp
    · obtain ⟨hMem, hBound⟩ := mem_entriesUpTo.mp hy
      exact hBetween y hMem (by simp [hLess]) hBound

/-- A backward walk that visits every entry with results collects, in its own
order, the results of the whole map. -/
theorem flatMap_takeWhile_entriesUpTo {β : Type} {m : Std.ExtTreeMap K V} {key : K}
    {p : K × V → Bool} {f : K × V → List β}
    (h : ∀ entry, m[entry.1]? = some entry.2 → f entry ≠ [] →
      entry ∈ (entriesUpTo m key).takeWhile p) :
    (((entriesUpTo m key).takeWhile p).flatMap f).Perm (m.toList.flatMap f) := by
  rw [flatMap_takeWhile descending_asymm (entriesUpTo_descending m key)
    fun entry hEntry => h entry (mem_entriesUpTo.mp hEntry).1]
  have hBelow : (m.toList.filter fun entry => (compare entry.1 key).isLE).flatMap f
      = m.toList.flatMap f := by
    apply flatMap_filter_of_ne_nil
    intro entry hEntry hf
    have hStored := Std.ExtTreeMap.mem_toList_iff_getElem?_eq_some.mp hEntry
    exact (mem_entriesUpTo.mp ((List.takeWhile_sublist p).subset (h entry hStored hf))).2
  rw [← hBelow, entriesUpTo]
  exact (List.reverse_perm _).flatMap_right f

end OrderedMap
end Cxx
