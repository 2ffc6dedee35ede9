import MatrixCube.Lib.ByteOrder

/-! # Half-open byte ranges

A range `[start, end)` over byte strings in which an empty `end` stands for
+∞, the convention of every range check in the stores modelled here. Besides
membership, this module proves the one fact that cutting a range at increasing
keys needs: the consecutive pieces `[start, k₁), [k₁, k₂), …, [kₘ, end)` are
non-empty, pairwise disjoint and cover exactly `[start, end)`.
-/

namespace KeyRange

open ByteOrder

/-- `k` lies strictly below the upper bound `end_`, an empty bound being +∞. -/
def Below (end_ k : Bytes) : Prop := end_ = [] ∨ k < end_

instance (end_ k : Bytes) : Decidable (Below end_ k) :=
  inferInstanceAs (Decidable (_ ∨ _))

/-- `k ∈ [start, end_)`. -/
def Contains (start end_ k : Bytes) : Prop := start ≤ k ∧ Below end_ k

instance (start end_ k : Bytes) : Decidable (Contains start end_ k) :=
  inferInstanceAs (Decidable (_ ∧ _))

/-- Two ranges share no key. -/
def Disjoint (r r' : Bytes × Bytes) : Prop :=
  ∀ k, ¬ (Contains r.1 r.2 k ∧ Contains r'.1 r'.2 k)

theorem Below.of_le {end_ k k' : Bytes} (h : Below end_ k') (hk : k ≤ k') : Below end_ k := by
  rcases h with h | h
  · exact .inl h
  · exact .inr (lt_of_le_of_lt hk h)

/-- A range holds its own start exactly when it is non-empty. -/
theorem contains_start_iff {start end_ : Bytes} :
    Contains start end_ start ↔ Below end_ start := by
  simp [Contains]

/-- A range that ends at or below the start of another is disjoint from it. -/
theorem disjoint_of_le {r r' : Bytes × Bytes} (h : r.2 ≠ []) (hle : r.2 ≤ r'.1) :
    Disjoint r r' := by
  rintro k ⟨⟨-, hk⟩, ⟨hk', -⟩⟩
  rcases hk with hk | hk
  · exact h hk
  · exact absurd (lt_of_lt_of_le hk hle) (not_lt.mpr hk')

theorem Disjoint.symm {r r' : Bytes × Bytes} (h : Disjoint r r') : Disjoint r' r :=
  fun k hk => h k hk.symm

/-- Ranges that share a key are not disjoint. -/
theorem not_disjoint_of_contains {r r' : Bytes × Bytes} {k : Bytes} (h : Contains r.1 r.2 k)
    (h' : Contains r'.1 r'.2 k) : ¬ Disjoint r r' :=
  fun hd => hd k ⟨h, h'⟩

/-- A range holding a key holds every key between its start and that key. -/
theorem Contains.of_le {start end_ k k' : Bytes} (h : Contains start end_ k') (h1 : start ≤ k)
    (h2 : k ≤ k') : Contains start end_ k :=
  ⟨h1, h.2.of_le h2⟩

/-- A range whose bounds do not lie in `(κ, k]` holds `κ` exactly when it
holds `k`. -/
theorem contains_iff_of_no_bound_between {start end_ κ k : Bytes} (hκ : κ ≤ k)
    (hstart : start ≤ k → start ≤ κ) (hend : end_ ≠ [] → end_ ≤ k → end_ ≤ κ) :
    Contains start end_ κ ↔ Contains start end_ k := by
  constructor
  · rintro ⟨h1, h2 | h2⟩
    · exact ⟨le_trans h1 hκ, .inl h2⟩
    · refine ⟨le_trans h1 hκ, .inr (lt_of_not_ge fun hle => ?_)⟩
      exact absurd (hend (ByteOrder.ne_nil_of_lt h2) hle) (not_le.mpr h2)
  · rintro ⟨h1, h2⟩
    exact ⟨hstart h1, h2.of_le hκ⟩

/-! ## Cutting a range at increasing keys -/

/-- The pieces of `[start, end_)` cut at the keys `ks`, in key order. -/
def chainRanges (start : Bytes) : List Bytes → Bytes → List (Bytes × Bytes)
  | [], end_ => [(start, end_)]
  | k :: ks, end_ => (start, k) :: chainRanges k ks end_

@[simp] theorem length_chainRanges (start : Bytes) (ks : List Bytes) (end_ : Bytes) :
    (chainRanges start ks end_).length = ks.length + 1 := by
  induction ks generalizing start with
  | nil => rfl
  | cons k ks ih => simp [chainRanges, ih]

/-- The cut keys climb strictly from `start` and stay below `end_`. -/
def Cuts (start : Bytes) (ks : List Bytes) (end_ : Bytes) : Prop :=
  List.IsChain (· < ·) (start :: ks) ∧ Below end_ ((start :: ks).getLast (by simp))

variable {start k end_ : Bytes} {ks : List Bytes}

theorem Cuts.tail (h : Cuts start (k :: ks) end_) : Cuts k ks end_ := by
  obtain ⟨hc, hb⟩ := h
  refine ⟨List.IsChain.tail hc, ?_⟩
  simpa [List.getLast_cons] using hb

theorem Cuts.head_lt (h : Cuts start (k :: ks) end_) : start < k := by
  obtain ⟨hc, -⟩ := h
  exact (List.isChain_cons_cons.mp hc).1

theorem Cuts.below_of_nil (h : Cuts start [] end_) : Below end_ start := by
  simpa [Cuts] using h.2

/-- Every piece starts at or above the first cut point. -/
theorem chainRanges_start_ge :
    ∀ {start : Bytes} {ks : List Bytes}, Cuts start ks end_ →
      ∀ r ∈ chainRanges start ks end_, start ≤ r.1
  | start, [], _ => by simp [chainRanges]
  | start, k :: ks, h => by
      intro r hr
      simp only [chainRanges, List.mem_cons] at hr
      rcases hr with rfl | hr
      · exact le_rfl
      · exact le_trans (le_of_lt h.head_lt) (chainRanges_start_ge h.tail r hr)

/-- Every piece is non-empty. -/
theorem chainRanges_nonempty :
    ∀ {start : Bytes} {ks : List Bytes}, Cuts start ks end_ →
      ∀ r ∈ chainRanges start ks end_, Below r.2 r.1
  | start, [], h => by simpa [chainRanges] using h.below_of_nil
  | start, k :: ks, h => by
      intro r hr
      simp only [chainRanges, List.mem_cons] at hr
      rcases hr with rfl | hr
      · exact .inr h.head_lt
      · exact chainRanges_nonempty h.tail r hr

/-- The pieces are pairwise disjoint. -/
theorem chainRanges_pairwise_disjoint :
    ∀ {start : Bytes} {ks : List Bytes}, Cuts start ks end_ →
      (chainRanges start ks end_).Pairwise Disjoint
  | start, [], _ => by simp [chainRanges]
  | start, k :: ks, h => by
      refine List.Pairwise.cons (fun r hr => ?_) (chainRanges_pairwise_disjoint h.tail)
      exact disjoint_of_le (ne_nil_of_lt h.head_lt) (chainRanges_start_ge h.tail r hr)

/-- Cutting at one key `k` inside the range splits its members in two. -/
theorem contains_iff_of_cut {x : Bytes} (hk : start < k) (hend : Below end_ k) :
    Contains start end_ x ↔ Contains start k x ∨ Contains k end_ x := by
  by_cases hx : x < k
  · have hnot : ¬ Contains k end_ x := fun h => absurd hx (not_lt.mpr h.1)
    rw [or_iff_left hnot]
    exact ⟨fun h => ⟨h.1, .inr hx⟩, fun h => ⟨h.1, hend.of_le (le_of_lt hx)⟩⟩
  · have hkx : k ≤ x := not_lt.mp hx
    have hnot : ¬ Contains start k x := by
      rintro ⟨-, h | h⟩
      · exact ne_nil_of_lt hk h
      · exact hx h
    rw [or_iff_right hnot]
    exact ⟨fun h => ⟨hkx, h.2⟩, fun h => ⟨le_trans (le_of_lt hk) hkx, h.2⟩⟩

/-- The first cut point already lies below the end. -/
theorem Cuts.below_start : ∀ {start : Bytes} {ks : List Bytes}, Cuts start ks end_ → Below end_ start
  | _, [], h => h.below_of_nil
  | _, _ :: _, h => (Cuts.below_start h.tail).of_le (le_of_lt h.head_lt)

/-- The pieces cover exactly the range that was cut. -/
theorem contains_iff_exists_chainRanges :
    ∀ {start : Bytes} {ks : List Bytes}, Cuts start ks end_ →
      ∀ x, Contains start end_ x ↔ ∃ r ∈ chainRanges start ks end_, Contains r.1 r.2 x
  | start, [], _ => by simp [chainRanges]
  | start, k :: ks, h => by
      intro x
      rw [contains_iff_of_cut h.head_lt h.tail.below_start,
        contains_iff_exists_chainRanges h.tail x]
      simp [chainRanges]

end KeyRange
