import Mathlib.Data.List.Sort

namespace Quire.KeyedSort
variable {Row Key : Type} [LinearOrder Key] {key : Row → Key} {rows sorted kept others : List Row}

-- Rows in the order of a key that no two of them share.
def Ascending (key : Row → Key) (rows : List Row) : Prop := rows.Pairwise fun a b => key a < key b

theorem ascending_of_sorted (ordered : rows.Pairwise fun a b => key a ≤ key b) (distinct : (rows.map key).Nodup) :
    Ascending key rows := by
  have apart : rows.Pairwise fun a b => key a ≠ key b := List.pairwise_map.mp distinct
  exact ordered.imp₂ (fun a b below different => lt_of_le_of_ne below different) apart

-- There is one such order.
theorem ascending_unique (permuted : rows.Perm sorted) (left : Ascending key rows) (right : Ascending key sorted) : rows = sorted := by
  refine permuted.eq_of_pairwise ?_ left right
  intro a b _ _ below above
  exact absurd (below.trans above) (lt_irrefl _)

theorem ascending_append : Ascending key (kept ++ others) ↔ Ascending key kept ∧ Ascending key others ∧
    ∀ a ∈ kept, ∀ b ∈ others, key a < key b := List.pairwise_append

instance keyTotal : Std.Total fun a b : Row => key a ≤ key b := ⟨fun a b => le_total (key a) (key b)⟩

instance keyTrans : IsTrans Row fun a b => key a ≤ key b := ⟨fun _ _ _ => le_trans⟩

-- Some of the rows come first exactly where they are in order and before the rest.
theorem first_iff (permuted : (kept ++ others).Perm sorted) (ordered : Ascending key sorted) :
    kept <+: sorted ↔ Ascending key kept ∧ ∀ a ∈ kept, ∀ b ∈ others, key a < key b := by
  constructor
  · rintro ⟨rest,rfl⟩
    obtain ⟨first,_,before⟩ := ascending_append.mp ordered
    have same : others.Perm rest := (List.perm_append_left_iff kept).mp permuted
    exact ⟨first,fun a inKept b inOthers => before a inKept b (same.subset inOthers)⟩
  · rintro ⟨first,before⟩
    let behind := others.insertionSort fun a b => key a ≤ key b
    have shuffled : behind.Perm others := List.perm_insertionSort _ others
    have distinct : (sorted.map key).Nodup := List.pairwise_map.mpr (ordered.imp fun below => ne_of_lt below)
    have apart : (others.map key).Nodup :=
      ((permuted.map key).nodup_iff.mpr distinct).sublist ((List.sublist_append_right kept others).map key)
    have last : Ascending key behind :=
      ascending_of_sorted (List.pairwise_insertionSort _ others) ((shuffled.map key).nodup_iff.mpr apart)
    have whole : Ascending key (kept ++ behind) :=
      ascending_append.mpr ⟨first,last,fun a inKept b inBehind => before a inKept b (shuffled.subset inBehind)⟩
    have same := ascending_unique ((shuffled.append_left kept).trans permuted) whole ordered
    exact ⟨behind,same⟩

end Quire.KeyedSort
