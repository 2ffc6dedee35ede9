import MatrixCube.Lib.KeyRange
import MatrixCube.Lib.OrderedSet

/-! # Range indices

An index of items that carry a key range `[start, end)`, kept in an ordered set
by start key, in which the stored ranges are non-empty and pairwise disjoint.
A lookup takes the item with the greatest start not above the key and keeps it
if it holds the key; an update walks up from the holder of the new start while
the items start below the new end, deletes what it visited, and inserts the
new item. The lemmas below say which item a lookup finds, which items an
update's walk collects, and what an update leaves, for any item type and any
direction of the underlying order.
-/

namespace KeyRange

variable {α : Type*} {start end_ : α → Bytes}

variable (start end_) in
/-- Items whose ranges are non-empty and pairwise disjoint. -/
structure Partition (items : List α) : Prop where
  nonempty : ∀ a ∈ items, Below (end_ a) (start a)
  disjoint : ∀ a ∈ items, ∀ b ∈ items, a ≠ b → Disjoint (start a, end_ a) (start b, end_ b)

namespace Partition

variable {items : List α}

/-- Two items that hold one key are the same item. -/
theorem eq_of_contains (hp : Partition start end_ items) {a b : α} (ha : a ∈ items) (hb : b ∈ items)
    {k : Bytes} (hka : Contains (start a) (end_ a) k) (hkb : Contains (start b) (end_ b) k) : a = b := by
  by_contra hne
  exact hp.disjoint a ha b hb hne k ⟨hka, hkb⟩

/-- An item holds its own start. -/
theorem contains_start (hp : Partition start end_ items) {a : α} (ha : a ∈ items) :
    Contains (start a) (end_ a) (start a) :=
  contains_start_iff.mpr (hp.nonempty a ha)

/-- The item with the greatest start not above `k` is the holder of `k`, if `k`
has one. -/
theorem eq_of_greatest (hp : Partition start end_ items) {x r : α} {k : Bytes} (hx : x ∈ items)
    (hxk : start x ≤ k) (hgreatest : ∀ y ∈ items, start y ≤ k → start y ≤ start x) (hr : r ∈ items)
    (hk : Contains (start r) (end_ r) k) : x = r :=
  -- `r` starts below `x`, so it holds the start of `x`, which `x` holds too
  hp.eq_of_contains hx hr (hp.contains_start hx) (hk.of_le (hgreatest r hr hk.1) hxk)

variable {res : α} {holder : Option α} {walk : α → Prop}

/-- The items an update's walk collects, with the one of the new start, are
those that overlap the new range. The walk starts at `holder`, the holder of
the new start if there is one, else at the new start itself. -/
theorem walk_or_start_eq_iff (hp : Partition start end_ items)
    (hholder : ∀ r, holder = some r ↔ r ∈ items ∧ Contains (start r) (end_ r) (start res))
    (hwalk : ∀ y, walk y ↔ y ∈ items ∧ start (holder.getD res) ≤ start y ∧ Below (end_ res) (start y))
    (hs : Below (end_ res) (start res)) {y : α} (hy : y ∈ items) :
    (walk y ∨ start y = start res) ↔ ¬ Disjoint (start y, end_ y) (start res, end_ res) := by
  have hres : Contains (start res) (end_ res) (start res) := contains_start_iff.mpr hs
  constructor
  · rintro (hw | heq)
    · obtain ⟨-, hfrom, hbelow⟩ := (hwalk y).mp hw
      by_cases hle : start res ≤ start y
      · -- the start of `y` lies in the new range
        exact not_disjoint_of_contains (hp.contains_start hy) ⟨hle, hbelow⟩
      · -- `y` starts below: the walk began at the holder of the new start, which is `y`
        cases hh : holder with
        | none => rw [hh, Option.getD_none] at hfrom; exact absurd hfrom hle
        | some r =>
          obtain ⟨hr, hk⟩ := (hholder r).mp hh
          rw [hh, Option.getD_some] at hfrom
          have hyr : y = r :=
            hp.eq_of_contains hy hr (hp.contains_start hy) (hk.of_le hfrom (not_le.mp hle).le)
          subst hyr
          exact not_disjoint_of_contains hk hres
    · exact not_disjoint_of_contains (heq ▸ hp.contains_start hy) hres
  · intro hnd
    obtain ⟨k, hky, hks⟩ : ∃ k, Contains (start y) (end_ y) k ∧ Contains (start res) (end_ res) k := by
      by_contra hno
      push Not at hno
      exact hnd fun k hk => hno k hk.1 hk.2
    left
    have hfrom : start (holder.getD res) ≤ start res := by
      cases hh : holder with
      | none => exact le_rfl
      | some r => exact ((hholder r).mp hh).2.1
    by_cases hle : start res ≤ start y
    · exact (hwalk y).mpr ⟨hy, hfrom.trans hle, hks.2.of_le hky.1⟩
    · -- `y` holds the new start, so the walk begins at `y`
      have hh : holder = some y := (hholder y).mpr ⟨hy, hky.of_le (not_le.mp hle).le hks.1⟩
      exact (hwalk y).mpr ⟨hy, by rw [hh, Option.getD_some], hs.of_le (not_le.mp hle).le⟩

section Update

variable {K : Type*} [LinearOrder K] {key : α → K} {t : OrderedSet key} {overlaps : List α}

/-- An update in an ordered set keyed by start: delete the keys of the items
the walk collected, then insert the new item. It holds the new item and exactly
the items disjoint from it. -/
theorem mem_update (hkey : ∀ a b, key a = key b ↔ start a = start b)
    (hov : ∀ y ∈ t.items, (y ∈ overlaps ∨ start y = start res) ↔
      ¬ Disjoint (start y, end_ y) (start res, end_ res))
    (hsub : ∀ o ∈ overlaps, o ∈ t.items) {x : α} :
    x ∈ ((overlaps.foldl (fun t item => t.delete (key item)) t).replaceOrInsert res).items ↔
      x = res ∨ (x ∈ t.items ∧ Disjoint (start x, end_ x) (start res, end_ res)) := by
  simp only [OrderedSet.mem_replaceOrInsert, OrderedSet.mem_foldl_delete]
  apply or_congr_right
  constructor
  · rintro ⟨⟨hx, hnot⟩, hk⟩
    refine ⟨hx, ?_⟩
    by_contra hd
    rcases (hov x hx).mpr hd with ho | heq
    · exact hnot x ho rfl
    · exact hk ((hkey x res).mpr heq)
  · rintro ⟨hx, hd⟩
    have hno := mt (hov x hx).mp (not_not.mpr hd)
    push Not at hno
    refine ⟨⟨hx, fun o ho hxo => hno.1 ?_⟩, fun h => hno.2 ((hkey x res).mp h)⟩
    rwa [OrderedSet.eq_of_key_eq hx (hsub o ho) hxo]

/-- An update with a non-empty range keeps the ranges a partition. -/
theorem update (hp : Partition start end_ t.items) (hkey : ∀ a b, key a = key b ↔ start a = start b)
    (hov : ∀ y ∈ t.items, (y ∈ overlaps ∨ start y = start res) ↔
      ¬ Disjoint (start y, end_ y) (start res, end_ res))
    (hsub : ∀ o ∈ overlaps, o ∈ t.items) (hs : Below (end_ res) (start res)) :
    Partition start end_ ((overlaps.foldl (fun t item => t.delete (key item)) t).replaceOrInsert res).items where
  nonempty x hx := by
    rcases (mem_update hkey hov hsub).mp hx with rfl | ⟨hx, -⟩
    · exact hs
    · exact hp.nonempty x hx
  disjoint a ha b hb hne := by
    rcases (mem_update hkey hov hsub).mp ha with rfl | ⟨ha, hda⟩ <;>
      rcases (mem_update hkey hov hsub).mp hb with rfl | ⟨hb, hdb⟩
    · exact absurd rfl hne
    · exact hdb.symm
    · exact hda
    · exact hp.disjoint a ha b hb hne

/-- Deleting the key of the holder of `k` removes exactly the item that holds `k`. -/
theorem mem_delete_holder (hp : Partition start end_ t.items) {r : α} {k : Bytes} (hr : r ∈ t.items)
    (hk : Contains (start r) (end_ r) k) {x : α} :
    x ∈ (t.delete (key r)).items ↔ x ∈ t.items ∧ ¬ Contains (start x) (end_ x) k := by
  rw [OrderedSet.mem_delete]
  refine and_congr_right fun hx => ⟨fun hne hxk => hne ?_, fun hno heq => hno ?_⟩
  · rw [hp.eq_of_contains hx hr hxk hk]
  · rwa [OrderedSet.eq_of_key_eq hx hr heq]

end Update

end Partition

end KeyRange
