import IcecastCommon.Avl.Delete

/-!
# Lookups by key and by index

Both walk down from the top, and neither writes to the memory.
-/

namespace Avl

open Lib

variable {κ ω : Type} {m : Memory (avl_node κ ω)}

/-- What a lookup by key answers when its search ended at this subtree. -/
def answer : BinaryTree (Item κ ω) → Int × Option κ
  | .nil => (-1, none)
  | .node i _ _ => (0, some i.key)

theorem get_by_key_spec (compare_fun : κ → κ → Int) (key : κ) (t : BinaryTree (Item κ ω)) :
    ∀ (parent : Ptr) (fuel a : Nat), Owns m parent t → ptr t = some a → t.height ≤ fuel →
      get_by_key compare_fun key fuel m (some a) =
        .ok (answer (seek (fun i => compare_fun key i.key) t []).2) := by
  induction t with
  | nil => intro _ _ _ _ h; cases h
  | node i l r ihl ihr =>
    rintro parent fuel a ⟨hi, hl, hr⟩ ha hfuel
    rw [ptr, Option.some.injEq] at ha
    rw [BinaryTree.height] at hfuel
    obtain ⟨fuel, rfl⟩ : ∃ n, fuel = n + 1 := ⟨fuel - 1, by omega⟩
    simp only [get_by_key, ← ha, Memory.load_eq hi, ok_bind, cell, seek]
    by_cases h1 : compare_fun key i.key < 0
    · rw [if_pos h1, if_pos h1, seek_append]
      cases l with
      | nil => rfl
      | node j x y => exact ihl (some i.addr) fuel j.addr hl rfl (by omega)
    rw [if_neg h1, if_neg h1]
    by_cases h2 : 0 < compare_fun key i.key
    · rw [if_pos h2, if_pos h2, seek_append]
      cases r with
      | nil => rfl
      | node j x y => exact ihr (some i.addr) fuel j.addr hr rfl (by omega)
    · rw [if_neg h2, if_neg h2]
      rfl

theorem index_behind {x : BitVec 64} {n : Nat} (h : n + 1 ≤ x.toNat) :
    (x - BitVec.ofInt 64 ((n : Int) + 1)).toNat = x.toNat - (n + 1) := by
  have hlt := x.isLt
  rw [show ((n : Int) + 1) = ((n + 1 : Nat) : Int) from rfl, BitVec.ofInt_natCast, BitVec.toNat_sub,
    BitVec.toNat_ofNat]
  omega

variable [RankBalance ω]

theorem get_by_index_spec (t : BinaryTree (Item κ ω)) :
    ∀ (parent : Ptr) (fuel : Nat) (x : BitVec 64), Owns m parent t → Ranked t → t.height < fuel →
      t.numNodes < 2 ^ 30 →
      get_by_index fuel m (ptr t) x = .ok (if x = 0 then (-1, none) else
        match (keys t)[x.toNat - 1]? with
        | some k => (0, some k)
        | none => (-1, none)) := by
  induction t with
  | nil =>
    intro parent fuel x _ _ hfuel _
    obtain ⟨fuel, rfl⟩ : ∃ n, fuel = n + 1 := ⟨fuel - 1, by omega⟩
    simp [get_by_index, ptr]
  | node i l r ihl ihr =>
    rintro parent fuel x ⟨hi, hl, hr⟩ ⟨hrank, hrl, hrr⟩ hfuel hsize
    rw [BinaryTree.height] at hfuel
    rw [BinaryTree.numNodes] at hsize
    obtain ⟨fuel, rfl⟩ : ∃ n, fuel = n + 1 := ⟨fuel - 1, by omega⟩
    have hword : AVL_GET_RANK i.word = (l.numNodes : Int) + 1 := hrank
    simp only [get_by_index, ptr_node, Memory.load_eq hi, ok_bind, cell, hword]
    have hlen : (keys l).length = l.numNodes := keys_length l
    by_cases h1 : (x.toNat : Int) < (l.numNodes : Int) + 1
    · rw [if_pos h1, ihl (some i.addr) fuel x hl hrl (by omega) (by omega)]
      by_cases hx : x = 0
      · rw [if_pos hx, if_pos hx]
      · have hpos : 0 < x.toNat := by
          have := (BitVec.toNat_ne (x := x) (y := 0)).mp hx
          simp at this
          omega
        rw [if_neg hx, if_neg hx, keys_node, List.getElem?_append_left (by omega)]
    rw [if_neg h1]
    have hx : ¬ x = 0 := by
      rintro rfl
      simp at h1
    by_cases h2 : (l.numNodes : Int) + 1 < x.toNat
    · -- the rank of the right subtree starts again at one
      have hsub := index_behind (show l.numNodes + 1 ≤ x.toNat by omega)
      have hx' : ¬ x - BitVec.ofInt 64 ((l.numNodes : Int) + 1) = 0 := by
        intro h0
        rw [h0] at hsub
        simp at hsub
        omega
      rw [if_pos h2, ihr (some i.addr) fuel _ hr hrr (by omega) (by omega), if_neg hx',
        if_neg hx, hsub, keys_node, List.getElem?_append_right (by omega), hlen]
      rw [show x.toNat - 1 - l.numNodes = (x.toNat - (l.numNodes + 1) - 1) + 1 by omega,
        List.getElem?_cons_succ]
    · rw [if_neg h2, if_neg hx, keys_node, List.getElem?_append_right (by omega), hlen,
        show x.toNat - 1 - l.numNodes = 0 by omega]
      rfl

variable [HasNull κ]

theorem avl_get_by_key_spec {tree : avl_tree κ ω} {t : BinaryTree (Item κ ω)} (key : κ)
    (h : Stands tree t) : avl_get_by_key tree key =
      .ok (answer (seek (fun i => tree.compare_fun key i.key) t []).2) := by
  obtain ⟨root, hroot, hheld⟩ := h.held
  obtain ⟨n, hn, hright, -, -⟩ := hheld.load_root
  have hbound := hheld.numNodes_lt_size
  have hheight := t.height_le_numNodes
  rw [plug_nil] at hright hbound
  simp only [avl_get_by_key, hroot, hn, ok_bind, hright]
  cases t with
  | nil => rfl
  | node i l r => exact get_by_key_spec _ key _ (some root) _ i.addr hheld.owns rfl (by omega)

/-- **Lookup by index.** The answer is the element at that place, or none from the end on. -/
theorem avl_get_by_index_spec {tree : avl_tree κ ω} {t : BinaryTree (Item κ ω)} (index : BitVec 64)
    (h : Stores tree t) (hr : Ranked t) (hsize : t.numNodes < 2 ^ 30) :
    avl_get_by_index tree index = .ok (match (keys t)[index.toNat]? with
      | some k => (0, some k)
      | none => (-1, none)) := by
  obtain ⟨root, hroot, hheld⟩ := h.held
  obtain ⟨n, hn, hright, -, -⟩ := hheld.load_root
  have hbound := hheld.numNodes_lt_size
  have hheight := t.height_le_numNodes
  rw [plug_nil] at hright hbound
  simp only [avl_get_by_index, hroot, hn, ok_bind, hright]
  rw [get_by_index_spec t (some root) _ (index + 1) hheld.owns hr (by omega) hsize]
  have hlt := index.isLt
  by_cases h0 : index + 1 = 0
  · -- the largest index wraps to rank zero, which no node has
    have hmax : index.toNat = 2 ^ 64 - 1 := by
      have := congrArg BitVec.toNat h0
      simp [BitVec.toNat_add] at this
      omega
    rw [if_pos h0, List.getElem?_eq_none (by rw [keys_length, hmax]; omega)]
  · have hsucc : (index + 1).toNat = index.toNat + 1 := by
      have := (BitVec.toNat_ne (x := index + 1) (y := 0)).mp h0
      simp [BitVec.toNat_add] at this ⊢
      omega
    rw [if_neg h0, hsucc, Nat.add_sub_cancel]

end Avl
