import IcecastCommon.Avl.Insert

/-!
# `avl_delete`

The search lowers the ranks on its way, and raises them again when the key is not there. A node
with two children trades places with its predecessor, so that the node to unlink has at most one
child. The climb then restores the balance factors.
-/

namespace Avl

open Lib

variable {κ ω : Type}

/-! ## The ranks on the way down -/

section Ranks

variable [RankBalance ω]

/-- The rank of a node that loses one on side `d`. -/
def sink (d : Side) (i : Item κ ω) : Item κ ω :=
  match d with
  | .left => i.setRank (i.rank - 1)
  | .right => i

@[simp] theorem sink_addr (d : Side) (i : Item κ ω) : (sink d i).addr = i.addr := by cases d <;> rfl
@[simp] theorem sink_key (d : Side) (i : Item κ ω) : (sink d i).key = i.key := by cases d <;> rfl

@[simp] theorem sink_balance [LawfulRankBalance ω] (d : Side) (i : Item κ ω) :
    (sink d i).balance = i.balance := by
  cases d
  · exact Item.setRank_balance i _
  · rfl

/-- The last node on the path of a search that fails: lowered and raised, or only raised. -/
def miss (d : Side) (i : Item κ ω) : Item κ ω :=
  match d with
  | .left => (sink .left i).setRank ((sink .left i).rank + 1)
  | .right => i.setRank (i.rank + 1)

@[simp] theorem miss_addr (d : Side) (i : Item κ ω) : (miss d i).addr = i.addr := by cases d <;> rfl
@[simp] theorem miss_key (d : Side) (i : Item κ ω) : (miss d i).key = i.key := by cases d <;> rfl

@[simp] theorem miss_balance [LawfulRankBalance ω] (d : Side) (i : Item κ ω) :
    (miss d i).balance = i.balance := by
  cases d <;> simp [miss]

theorem sink_spaced [LawfulRankBalance ω] (c : List (Frame (Item κ ω)))
    (u u' : BinaryTree (Item κ ω)) (h : Spaced (plug c u)) (hu' : Spaced u')
    (hw : weight u' + 1 ≤ weight u) (hsize : weight (plug c u) < 2 ^ 30) :
    Spaced (plug (c.map (Frame.map sink)) u') ∧
      weight (plug (c.map (Frame.map sink)) u') + 1 ≤ weight (plug c u) := by
  induction c generalizing u u' with
  | nil => exact ⟨hu', hw⟩
  | cons f c ih =>
    obtain ⟨-, hf, hsib, -⟩ := (everywhere_plug (f :: c) u).mp h
    have hpos := hu'.weight_nonneg
    have hpos' := Spaced.weight_nonneg hsib
    have hle := weight_le_plug c (f.fill u) h
    rw [plug_cons] at hsize
    rw [weight_fill] at hle
    refine ih (f.fill u) ((f.map sink).fill u') h ?_ ?_ hsize
    · rw [spaced_fill, Frame.map_side, Frame.map_value, Frame.map_sibling]
      refine ⟨?_, hu', hsib⟩
      cases hs : f.side <;> rw [hs] at hf hle <;> unfold SpacedAt at hf <;> dsimp only at hf hle ⊢
      · rw [sink, Item.setRank_rank _ (by omega) (by omega) (by omega)]
        omega
      · exact hf
    · rw [weight_fill, weight_fill, Frame.map_side, Frame.map_value, Frame.map_sibling]
      cases hs : f.side <;> rw [hs] at hf hle <;> unfold SpacedAt at hf <;> dsimp only at hf hle ⊢
      · rw [sink, Item.setRank_rank _ (by omega) (by omega) (by omega)]
        omega
      · rw [sink]
        omega

/-- The frames after the search for a key that is not there. The undo walk gives the last node on
the path one too many when the path ends to its right. -/
def lost : List (Frame (Item κ ω)) → List (Frame (Item κ ω)) → List (Frame (Item κ ω))
  | [], c => c.map (Frame.map bump)
  | f :: p, c => f.map miss :: (p.map (Frame.map sink) ++ c).map (Frame.map bump)

theorem lost_labels (p : List (Frame (Item κ ω))) (t : BinaryTree (Item κ ω)) :
    labels (plug (lost p []) t) = labels (plug p t) := by
  cases p with
  | nil => rfl
  | cons f p =>
    rw [lost, List.append_nil, plug_cons, plug_cons,
      labels_plug_map bump fun d i => ⟨bump_addr d i, bump_key d i⟩,
      labels_plug_map sink fun d i => ⟨sink_addr d i, sink_key d i⟩]
    exact labels_plug_congr _ _ _
      (labels_plug_map miss (fun d i => ⟨miss_addr d i, miss_key d i⟩) [f] t)

theorem lost_balanced [LawfulRankBalance ω] (p : List (Frame (Item κ ω)))
    (t : BinaryTree (Item κ ω)) (h : Balanced (plug p t)) : Balanced (plug (lost p []) t) := by
  obtain ⟨ht, hp⟩ := (everywhere_plug _ _).mp h
  refine (everywhere_plug _ _).mpr ⟨ht, ?_⟩
  cases p with
  | nil => exact hp
  | cons f p =>
    rw [lost, List.append_nil]
    obtain ⟨h1, h2⟩ := (above_append [f] p t).mp hp
    refine (above_append [f.map miss] _ t).mpr
      ⟨above_balanced_map miss miss_balance [f] t t rfl h1, ?_⟩
    refine above_balanced_map bump bump_balance _ _ _ rfl
      (above_balanced_map sink sink_balance _ _ _ ?_ h2)
    rw [plug_cons, plug_cons, plug_nil, plug_nil, height_fill, height_fill, Frame.map_sibling]

end Ranks

/-! ## The search -/

section Search

variable [RankBalance ω] [HasNull κ] {root : Nat}

omit [RankBalance ω] in
/-- Below the path, the cell `x` is not the top one, and hangs from the last cell of the path. -/
theorem undo_cell {f : Frame (Item κ ω)} {c : List (Frame (Item κ ω))} {m : Memory (avl_node κ ω)}
    {u : BinaryTree (Item κ ω)} {x : Nat} (h : Holds m root (f :: c) u) (hx : ptr u = some x) :
    ∃ n nx, m.load (some root) = .ok n ∧ some x ≠ n.right ∧ m.get x = some nx ∧
      nx.parent = some f.value.addr ∧
      m.get f.value.addr = some (cellOn f.side f.value (some x) (ptr f.sibling) (upper root c)) ∧
      ((cellOn f.side f.value (some x) (ptr f.sibling) (upper root c)).left = some x ↔
        f.side = .left) := by
  obtain ⟨n, hn, hright, -, -⟩ := h.load_root
  obtain ⟨top, htop, hptr⟩ := ptr_plug f c u
  obtain ⟨hnd, -, hout⟩ := (distinct_iff _ _ _).mp h.distinct
  have hxout := (hout x (ptr_mem hx)).2
  have hne : some x ≠ n.right := by
    rw [hright, hptr]
    rintro heq
    rw [Option.some.inj heq] at hxout
    exact hxout htop
  obtain ⟨nx, hnx, hparent⟩ : ∃ nx, m.get x = some nx ∧ nx.parent = some f.value.addr := by
    cases u with
    | nil => cases hx
    | node j y z =>
      rw [ptr, Option.some.injEq] at hx
      exact ⟨_, hx ▸ h.get_node, rfl⟩
  have hcell := h.around.1
  rw [hx] at hcell
  have hhang : (cellOn f.side f.value (some x) (ptr f.sibling) (upper root c)).left = some x ↔
      f.side = .left := by
    obtain ⟨a, na, ha, hna, hl, -⟩ := load_upper (hx ▸ h.around) hxout
    obtain rfl : f.value.addr = a := by simpa [upper] using ha
    rw [hcell] at hna
    rw [Option.some.inj hna]
    exact hl
  exact ⟨n, nx, hn, hne, hnx, hparent, hcell, hhang⟩

/-- The undo walk: the ranks above the focus are raised where the path goes left. -/
theorem delete_undo_spec (c : List (Frame (Item κ ω))) :
    ∀ (m : Memory (avl_node κ ω)) (u : BinaryTree (Item κ ω)) (x fuel : Nat), Holds m root c u →
      ptr u = some x → c.length < fuel →
      ∃ m', delete_undo (some root) fuel m (some x) = .ok m' ∧
      Holds m' root (c.map (Frame.map bump)) u ∧
        m'.grants = m.grants := by
  induction c with
  | nil =>
    intro m u x fuel h hx hfuel
    obtain ⟨fuel, rfl⟩ : ∃ n, fuel = n + 1 := ⟨fuel - 1, by omega⟩
    obtain ⟨n, hn, hright, -, -⟩ := h.load_root
    rw [plug_nil, hx] at hright
    refine ⟨m, ?_, h, rfl⟩
    simp only [delete_undo, hn, ok_bind, hright, if_true, pure_eq_ok]
  | cons f c ih =>
    intro m u x fuel h hx hfuel
    rw [List.length_cons] at hfuel
    obtain ⟨fuel, rfl⟩ : ∃ n, fuel = n + 1 := ⟨fuel - 1, by omega⟩
    obtain ⟨n, nx, hn, hne, hnx, hparent, hcell, hhang⟩ := undo_cell h hx
    cases hs : f.side with
    | left =>
      obtain ⟨m1, hm1, h1, hg1⟩ := h.set_rank_above (f.value.rank + 1)
      have hf : f.map bump = f.map fun _ i => i.setRank (f.value.rank + 1) := by
        simp [Frame.map, hs, bump]
      rw [← hf] at h1
      obtain ⟨m2, hm2, h2, hg2⟩ := ih m1 ((f.map bump).fill u) f.value.addr fuel (holds_cons.mp h1)
        (by rw [fill_eq_bin, ptr_bin, Frame.map_value, bump_addr]) (by omega)
      refine ⟨m2, ?_, holds_cons.mpr h2, by rw [hg2, hg1]⟩
      simp only [delete_undo, hn, ok_bind, if_neg hne, Memory.load_eq hnx, hparent,
        Memory.load_eq hcell, if_pos (hhang.mpr hs), get_rank_cell hcell, hm1, hm2]
    | right =>
      have hf : f.map bump = f := by
        cases f
        simp_all [Frame.map, bump]
      rw [List.map_cons, hf]
      obtain ⟨m2, hm2, h2, hg2⟩ := ih m (f.fill u) f.value.addr fuel (holds_cons.mp h)
        (by rw [fill_eq_bin, ptr_bin]) (by omega)
      refine ⟨m2, ?_, holds_cons.mpr h2, hg2⟩
      have hleft :
          ¬ (cellOn f.side f.value (some x) (ptr f.sibling) (upper root c)).left = some x := by
        rw [hhang, hs]
        simp
      simp only [delete_undo, hn, ok_bind, if_neg hne, Memory.load_eq hnx, hparent,
        Memory.load_eq hcell, if_neg hleft, pure_eq_ok, hm2]

/-- The search below the path `c` went down `p` and ended at `u`. -/
def Searched (root : Nat) (c : List (Frame (Item κ ω))) (m : Memory (avl_node κ ω))
    (p : List (Frame (Item κ ω))) (u : BinaryTree (Item κ ω))
    (result : C (Memory (avl_node κ ω) × Ptr)) : Prop :=
  ∃ m', result = .ok (m', ptr u) ∧ m'.grants = m.grants ∧
    Holds m' root (match u with | .nil => lost p c | .node .. => p.map (Frame.map sink) ++ c) u

theorem searched_snoc {c : List (Frame (Item κ ω))} {m : Memory (avl_node κ ω)}
    {p : List (Frame (Item κ ω))} {u : BinaryTree (Item κ ω)} {f : Frame (Item κ ω)}
    {result : C (Memory (avl_node κ ω) × Ptr)} (hne : p ≠ [] ∨ u ≠ .nil)
    (h : Searched root (f.map sink :: c) m p u result) : Searched root c m (p ++ [f]) u result := by
  obtain ⟨m', hm', hg, h⟩ := h
  refine ⟨m', hm', hg, ?_⟩
  cases u with
  | nil =>
    cases p with
    | nil => simp at hne
    | cons g p => simpa [lost] using h
  | node j y z => simpa using h

theorem delete_search_spec (compare_fun : κ → κ → Int) (key : κ) (root bound : Nat)
    (x : BinaryTree (Item κ ω)) :
    ∀ (c : List (Frame (Item κ ω))) (m : Memory (avl_node κ ω)) (fuel : Nat) (i : Item κ ω)
      (l r : BinaryTree (Item κ ω)), x = .node i l r → Holds m root c x → x.height ≤ fuel →
      x.height + c.length < bound →
      Searched root c m (seek (fun i => compare_fun key i.key) x []).1
        (seek (fun i => compare_fun key i.key) x []).2
        (delete_search compare_fun key (some root) bound fuel m (some i.addr)) := by
  induction x with
  | nil => intro _ _ _ _ _ _ h; cases h
  | node i l r ihl ihr =>
    rintro c m fuel _ _ _ ⟨⟩ h hfuel hbound
    rw [BinaryTree.height] at hfuel hbound
    obtain ⟨fuel, rfl⟩ : ∃ n, fuel = n + 1 := ⟨fuel - 1, by omega⟩
    simp only [delete_search, Memory.load_eq h.get_node, ok_bind, cell, seek]
    by_cases h1 : compare_fun key i.key < 0
    · obtain ⟨m1, hm1, hh1, hg1⟩ := h.set_rank (i.rank - 1)
      let f : Frame (Item κ ω) := ⟨i, .left, r⟩
      have hf : Holds m1 root (f.map sink :: c) l := holds_cons.mpr hh1
      rw [Item.rank] at hm1
      rw [if_pos h1, if_pos h1, hm1, ok_bind, seek_append]
      cases l with
      | nil =>
        obtain ⟨m2, hm2, h2, hg2⟩ := hf.set_rank_above ((sink .left i).rank + 1)
        obtain ⟨m3, hm3, h3, hg3⟩ := delete_undo_spec c m2 _ i.addr bound (holds_cons.mp h2) rfl
          (by omega)
        have hcell := get_rank_cell hf.around.1
        refine ⟨m3, ?_, by rw [hg3, hg2, hg1], holds_cons.mpr h3⟩
        simp only [ptr, seek]
        rw [show get_rank m1 (some i.addr) = .ok (sink .left i).rank from hcell, ok_bind,
          show set_rank m1 (some i.addr) ((sink .left i).rank + 1) = .ok m2 from hm2, ok_bind, hm3,
          ok_bind, pure_eq_ok]
      | node j y z =>
        obtain ⟨m2, hm2, hg2, h2⟩ := searched_snoc (seek_node_ne _ j y z)
          (ihl (f.map sink :: c) m1 fuel j y z rfl hf (by omega) (by rw [List.length_cons]; omega))
        exact ⟨m2, hm2, by rw [hg2, hg1], h2⟩
    rw [if_neg h1, if_neg h1]
    by_cases h2 : 0 < compare_fun key i.key
    · let f : Frame (Item κ ω) := ⟨i, .right, l⟩
      have hf : Holds m root (f.map sink :: c) r := holds_cons.mpr h
      rw [if_pos h2, if_pos h2, seek_append]
      cases r with
      | nil =>
        obtain ⟨m2, hm2, h2, hg2⟩ := hf.set_rank_above (i.rank + 1)
        obtain ⟨m3, hm3, h3, hg3⟩ := delete_undo_spec c m2 _ i.addr bound (holds_cons.mp h2) rfl
          (by omega)
        refine ⟨m3, ?_, by rw [hg3, hg2], holds_cons.mpr h3⟩
        simp only [ptr, seek]
        rw [show set_rank m (some i.addr) (AVL_GET_RANK i.word + 1) = .ok m2 from hm2, ok_bind, hm3,
          ok_bind, pure_eq_ok]
      | node j y z =>
        exact searched_snoc (seek_node_ne _ j y z)
          (ihr (f.map sink :: c) m fuel j y z rfl hf (by omega) (by rw [List.length_cons]; omega))
    · rw [if_neg h2, if_neg h2]
      exact ⟨m, rfl, rfl, h⟩

end Search

/-! ## Where a level goes -/

section Levels

variable [RankBalance ω]

/-- The balance factor of the node on top. -/
def topBalance : BinaryTree (Item κ ω) → Int
  | .nil => 0
  | .node i _ _ => i.balance

/-- When the subtree on side `d` of `p` loses a level, the whole one does: `p` leaned to that side,
or its other child `s` leans to one. -/
def PassesOn (d : Side) (p : Item κ ω) (s : BinaryTree (Item κ ω)) : Prop :=
  p.balance = d.sign ∨ p.balance = -d.sign ∧ topBalance s ≠ 0

instance (d : Side) (p : Item κ ω) (s : BinaryTree (Item κ ω)) : Decidable (PassesOn d p s) :=
  inferInstanceAs (Decidable (_ ∨ _))

/-- Taking out the rightmost node costs the tree a level. -/
def LowersRightmost : BinaryTree (Item κ ω) → Prop
  | .nil => False
  | .node i l r => r = .nil ∨ LowersRightmost r ∧ PassesOn .right i l

/-- Taking out a node, or its predecessor when it has two children, costs its subtree a level. -/
def LowersNode (i : Item κ ω) (l r : BinaryTree (Item κ ω)) : Prop :=
  l = .nil ∨ r = .nil ∨ LowersRightmost l ∧ PassesOn .left i r

/-- Taking out the node that the probe finds costs the tree a level. -/
def Lowers (probe : Item κ ω → Int) : BinaryTree (Item κ ω) → Prop
  | .nil => False
  | .node i l r =>
    if probe i < 0 then Lowers probe l ∧ PassesOn .left i r
    else if 0 < probe i then Lowers probe r ∧ PassesOn .right i l
    else LowersNode i l r

/-- Every frame passes the loss on. -/
def AllPassOn (c : List (Frame (Item κ ω))) : Prop := ∀ f ∈ c, PassesOn f.side f.value f.sibling

instance (c : List (Frame (Item κ ω))) : Decidable (AllPassOn c) := List.decidableBAll _ _

theorem allPassOn_append (b c : List (Frame (Item κ ω))) :
    AllPassOn (b ++ c) ↔ AllPassOn b ∧ AllPassOn c :=
  List.forall_mem_append

theorem allPassOn_cons (f : Frame (Item κ ω)) (c : List (Frame (Item κ ω))) :
    AllPassOn (f :: c) ↔ PassesOn f.side f.value f.sibling ∧ AllPassOn c :=
  List.forall_mem_cons

theorem lowersRightmost_plug (b : List (Frame (Item κ ω))) (y : Item κ ω)
    (ly : BinaryTree (Item κ ω)) (hb : ∀ f ∈ b, f.side = .right) :
    LowersRightmost (plug b (.node y ly .nil)) ↔ AllPassOn b := by
  induction b using List.reverseRecOn with
  | nil => simp [LowersRightmost, AllPassOn]
  | append_singleton b f ih =>
    simp only [List.mem_append, List.mem_singleton, or_imp, forall_and, forall_eq] at hb
    have hne : plug b (.node y ly .nil) ≠ .nil := by
      intro h
      have hle := numNodes_le_plug b (.node y ly .nil)
      rw [h] at hle
      simp [BinaryTree.numNodes] at hle
    rw [plug_append, plug_cons, plug_nil, fill_eq_bin, hb.2, bin, LowersRightmost,
      or_iff_right hne, ih hb.1, allPassOn_append, allPassOn_cons, hb.2]
    simp [AllPassOn]

theorem lowers_seek (probe : Item κ ω → Int) (t : BinaryTree (Item κ ω))
    {p : List (Frame (Item κ ω))} {i : Item κ ω} {l r : BinaryTree (Item κ ω)}
    (hseek : seek probe t [] = (p, .node i l r)) :
    Lowers probe t ↔ LowersNode i l r ∧ AllPassOn p := by
  induction t generalizing p with
  | nil => simp [seek] at hseek
  | node j x y ihx ihy =>
    rw [seek] at hseek
    rw [Lowers]
    split_ifs at hseek ⊢ with h1 h2
    · rw [seek_append, Prod.mk.injEq] at hseek
      rw [ihx (Prod.ext rfl hseek.2), ← hseek.1, allPassOn_append, allPassOn_cons, and_assoc]
      simp [AllPassOn]
    · rw [seek_append, Prod.mk.injEq] at hseek
      rw [ihy (Prod.ext rfl hseek.2), ← hseek.1, allPassOn_append, allPassOn_cons, and_assoc]
      simp [AllPassOn]
    · cases hseek
      simp [AllPassOn]

theorem not_lowers_of_absent (probe : Item κ ω → Int) (t : BinaryTree (Item κ ω))
    (hseek : (seek probe t []).2 = .nil) : ¬ Lowers probe t := by
  induction t with
  | nil => exact id
  | node j x y ihx ihy =>
    rw [seek] at hseek
    rw [Lowers]
    split_ifs at hseek ⊢ with h1 h2
    · rw [seek_append] at hseek
      exact fun h => ihx hseek h.1
    · rw [seek_append] at hseek
      exact fun h => ihy hseek h.1

theorem allPassOn_map (g : Side → Item κ ω → Item κ ω) (hg : ∀ d i, (g d i).balance = i.balance)
    (c : List (Frame (Item κ ω))) : AllPassOn (c.map (Frame.map g)) ↔ AllPassOn c := by
  simp only [AllPassOn, List.forall_mem_map, PassesOn, Frame.map_side, Frame.map_value,
    Frame.map_sibling, hg]

end Levels

/-! ## The node to unlink -/

theorem rightmost_spec {m : Memory (avl_node κ ω)} (t : BinaryTree (Item κ ω)) :
    ∀ (parent : Ptr) (fuel : Nat), t ≠ .nil → Owns m parent t → t.height ≤ fuel →
      ∃ b y ly, t = plug b (.node y ly .nil) ∧ (∀ f ∈ b, f.side = .right) ∧
        rightmost fuel m (ptr t) = .ok (some y.addr) := by
  induction t with
  | nil => intro _ _ h; exact absurd rfl h
  | node i l r _ ihr =>
    rintro parent fuel - ⟨hi, -, hr⟩ hfuel
    rw [BinaryTree.height] at hfuel
    obtain ⟨fuel, rfl⟩ : ∃ n, fuel = n + 1 := ⟨fuel - 1, by omega⟩
    cases hrr : r with
    | nil =>
      refine ⟨[], i, l, rfl, by simp, ?_⟩
      simp only [ptr, rightmost, Memory.load_eq hi, ok_bind, cell, hrr, pure_eq_ok]
    | node j x y =>
      obtain ⟨b, z, lz, heq, hside, hrun⟩ := ihr (some i.addr) fuel (by simp [hrr]) hr (by omega)
      refine ⟨b ++ [⟨i, .right, l⟩], z, lz, ?_, ?_, ?_⟩
      · rw [plug_append, ← heq, hrr]
        rfl
      · simp only [List.mem_append, List.mem_singleton]
        rintro f (hf | rfl)
        · exact hside f hf
        · rfl
      · rw [hrr] at hrun
        simp only [ptr, rightmost, Memory.load_eq hi, ok_bind, cell, hrr]
        exact hrun

section Swap

variable [HasNull κ] {m : Memory (avl_node κ ω)} {root : Nat} {c : List (Frame (Item κ ω))}

/-- The node that is unlinked has one child `v` at most, and the key that was found. -/
structure Swapped [RankBalance ω] (i : Item κ ω) (l r : BinaryTree (Item κ ω))
    (e : List (Frame (Item κ ω))) (d : Side) (j : Item κ ω) (v : BinaryTree (Item κ ω)) : Prop where
  key : j.key = i.key
  keys : keys (plug e v) = keys l ++ keys r
  balanced : Balanced (.node i l r) → Balanced (plug e (bin d j v .nil)) ∧
    (plug e (bin d j v .nil)).height = (BinaryTree.node i l r).height
  rank : Spaced (.node i l r) → 0 ≤ j.rank
  spaced : Spaced (.node i l r) → weight (.node i l r) < 2 ^ 30 →
    Spaced (plug e v) ∧ weight (plug e v) + 1 ≤ weight (.node i l r)

omit [HasNull κ] in
theorem swapped_nil [RankBalance ω] (i : Item κ ω) (d : Side) (v : BinaryTree (Item κ ω)) :
    Swapped i (match d with | .left => v | .right => .nil)
      (match d with | .left => .nil | .right => v)
      [] d i v := by
  refine ⟨rfl, ?_, ?_, fun h => ?_, ?_⟩
  · cases d <;> simp
  · intro h
    cases d <;> exact ⟨h, rfl⟩
  · obtain ⟨hi, hl, -⟩ := h
    exact (Spaced.weight_nonneg hl).trans (le_of_lt hi)
  · rintro ⟨hi, hl, hr⟩ _
    unfold SpacedAt at hi
    cases d
    · exact ⟨hl, by simp only [plug_nil, weight] at hi ⊢; omega⟩
    · exact ⟨hr, by simp only [plug_nil, weight] at hi ⊢; omega⟩

omit [HasNull κ] in
theorem swapped_rightmost [RankBalance ω] [LawfulRankBalance ω] (i y : Item κ ω)
    (ly r : BinaryTree (Item κ ω)) (b : List (Frame (Item κ ω))) (hb : ∀ f ∈ b, f.side = .right) :
    Swapped i (plug b (.node y ly .nil)) r
      (b ++ [⟨({ i with key := y.key } : Item κ ω).setRank (i.rank - 1), .left, r⟩]) .left
      { y with key := i.key } ly := by
  refine ⟨rfl, ?_, ?_, ?_, ?_⟩
  · rw [plug_append, plug_cons, plug_nil, fill_eq_bin, keys_plug b (.node y ly .nil),
      after_eq_nil hb]
    simp [bin, keys_plug, after_eq_nil hb]
  · rintro ⟨hi, hL, hr⟩
    obtain ⟨⟨hy, hly, -⟩, hfr⟩ := (everywhere_plug _ _).mp hL
    have hsame : (plug b (.node { y with key := i.key } ly .nil)).height =
        (plug b (.node y ly .nil)).height := height_plug b _ _ rfl
    have hL' : Balanced (plug b (.node { y with key := i.key } ly .nil)) :=
      (everywhere_plug _ _).mpr ⟨⟨hy, hly, trivial⟩,
        above_balanced_congr b (.node y ly .nil) _ rfl hfr⟩
    rw [plug_append, plug_cons, plug_nil, fill_eq_bin]
    refine ⟨⟨?_, hL', hr⟩, ?_⟩
    · unfold BalancedAt at hi ⊢
      rw [Item.setRank_balance, bin, hsame]
      exact hi
    · simp only [bin, BinaryTree.height, hsame]
  · rintro ⟨-, hL, -⟩
    obtain ⟨⟨hy, hly, -⟩, -⟩ := (everywhere_plug _ _).mp hL
    exact (Spaced.weight_nonneg hly).trans (le_of_lt hy)
  · rintro ⟨hi, hL, hr⟩ hsize
    obtain ⟨⟨hy, hly, -⟩, -⟩ := (everywhere_plug _ _).mp hL
    have hpos := Spaced.weight_nonneg hr
    have hposL := Spaced.weight_nonneg hL
    unfold SpacedAt at hi hy
    have hsink : b.map (Frame.map sink) = b := by
      refine (List.map_congr_left fun f hf => ?_).trans (List.map_id b)
      obtain ⟨v, d, s⟩ := f
      have hd : d = .right := hb _ hf
      subst hd
      rfl
    rw [weight] at hsize ⊢
    obtain ⟨hL', hw⟩ :=
      sink_spaced b (.node y ly .nil) ly hL hly (by simp only [weight]; omega) (by omega)
    rw [hsink] at hL' hw
    have hposL' := hL'.weight_nonneg
    have hrank : (({ i with key := y.key } : Item κ ω).setRank (i.rank - 1)).rank = i.rank - 1 :=
      Item.setRank_rank { i with key := y.key } (show 0 ≤ i.rank by omega) (by omega) (by omega)
    rw [plug_append, plug_cons, plug_nil, fill_eq_bin, spaced_bin, weight_bin, hrank]
    exact ⟨⟨by dsimp only; omega, hL', hr⟩, by dsimp only; omega⟩

theorem delete_swap_spec [RankBalance ω] [LawfulRankBalance ω] {i : Item κ ω}
    {l r : BinaryTree (Item κ ω)} {bound : Nat} (h : Holds m root c (.node i l r))
    (hbound : l.height ≤ bound) :
    ∃ m' e d j v, delete_swap bound m (some i.addr) = .ok (m', some j.addr) ∧
      Holds m' root (e ++ c) (bin d j v .nil) ∧ m'.grants = m.grants ∧ Swapped i l r e d j v ∧
      (AllPassOn e ↔ LowersNode i l r) := by
  have hempty : AllPassOn ([] : List (Frame (Item κ ω))) := by simp [AllPassOn]
  have hload := Memory.load_eq h.get_node
  cases hl : l with
  | nil =>
    refine ⟨m, [], .right, i, r, ?_, hl ▸ h, rfl, swapped_nil i .right r,
      iff_of_true hempty (.inl rfl)⟩
    simp only [delete_swap, hload, ok_bind, cell, hl, ptr, pure_eq_ok]
  | node jl xl yl =>
    cases hr : r with
    | nil =>
      refine ⟨m, [], .left, i, l, ?_, ?_, rfl, hl ▸ swapped_nil i .left l,
        iff_of_true hempty (.inr (.inl rfl))⟩
      · simp only [delete_swap, hload, ok_bind, cell, hl, hr, ptr, pure_eq_ok]
      · rw [hr] at h
        exact h
    | node jr xr yr =>
      obtain ⟨b, y, ly, heq, hside, hrun⟩ := rightmost_spec l (some i.addr) bound (by simp [hl])
        h.owns.2.1 hbound
      have hf : Holds m root (⟨i, .left, r⟩ :: c) (plug b (.node y ly .nil)) := by
        rw [← heq]
        exact holds_cons.mpr h
      have hdeep : Holds m root (b ++ ⟨i, .left, r⟩ :: c) (.node y ly .nil) := holds_append.mpr hf
      obtain ⟨m1, hm1, h1, hg1⟩ := hf.update_above { i with key := y.key } rfl
        (fun n => { n with key := y.key }) (fun _ _ _ => rfl)
      obtain ⟨m2, hm2, h2, hg2⟩ := (holds_append.mpr h1).set_key i.key
      have h2' := holds_append.mp h2
      obtain ⟨m3, hm3, h3, hg3⟩ := h2'.set_rank_above (i.rank - 1)
      have hrank := get_rank_cell h2'.around.1
      have hpass :
          AllPassOn (b ++ [⟨({ i with key := y.key } : Item κ ω).setRank (i.rank - 1), .left, r⟩]) ↔
          LowersNode i l r := by
        have hbalance :
            (({ i with key := y.key } : Item κ ω).setRank (i.rank - 1)).balance = i.balance :=
          Item.setRank_balance _ _
        rw [LowersNode, or_iff_right (by simp [hl]), or_iff_right (by simp [hr]), heq,
          lowersRightmost_plug b y ly hside, allPassOn_append, allPassOn_cons, PassesOn,
          PassesOn, hbalance]
        simp [AllPassOn]
      rw [← hl, ← hr]
      refine ⟨m3, _, _, _, _, ?_, ?_, by rw [hg3, hg2, hg1],
        heq ▸ swapped_rightmost i y ly r b hside, hpass⟩
      · rw [hl, hr] at hload
        rw [hl] at hrun
        simp only [ptr] at hrun
        simp only [delete_swap, hload, ok_bind, cell, ptr, hrun, Memory.load_eq hdeep.get_node]
        rw [show set_key m (some i.addr) y.key = .ok m1 from hm1, ok_bind, hm2, ok_bind,
          show get_rank m2 (some i.addr) = .ok i.rank from hrank, ok_bind,
          show set_rank m2 (some i.addr) (i.rank - 1) = .ok m3 from hm3]
        rfl
      · rw [List.append_assoc]
        exact holds_append.mpr h3

end Swap

section Swapped

variable [RankBalance ω] {p e : List (Frame (Item κ ω))} {i j : Item κ ω}
  {l r v : BinaryTree (Item κ ω)} {d : Side}

theorem swapped_keys (h : Swapped i l r e d j v) : keys (plug (e ++ p.map (Frame.map sink)) v) =
    ((before p).map (·.key) ++ keys l) ++ (keys r ++ (after p).map (·.key)) := by
  rw [plug_append, keys_plug_map sink sink_key, keys_plug, h.keys]
  simp

theorem swapped_height (h : Swapped i l r e d j v) (hb : Balanced (.node i l r)) :
    (plug (e ++ p.map (Frame.map sink)) (bin d j v .nil)).height =
      (plug p (.node i l r)).height := by
  rw [plug_append]
  exact height_plug_map sink p _ _ (h.balanced hb).2

/-- One key is taken out, and the others stay in order. -/
theorem swapped_removes {t' : BinaryTree (Item κ ω)} (h : Swapped i l r e d j v)
    (hlab : labels t' = labels (plug (e ++ p.map (Frame.map sink)) v)) :
    (∃ A B, keys (plug p (.node i l r)) = A ++ i.key :: B ∧ keys t' = A ++ B) ∧
      t'.numNodes + 1 = (plug p (.node i l r)).numNodes := by
  have hkeys : keys (plug p (.node i l r)) =
      ((before p).map (·.key) ++ keys l) ++ i.key :: (keys r ++ (after p).map (·.key)) := by
    rw [keys_plug]
    simp
  have hkeys' :
      keys t' = ((before p).map (·.key) ++ keys l) ++ (keys r ++ (after p).map (·.key)) := by
    rw [keys_of_labels, hlab, ← keys_of_labels, swapped_keys h]
  refine ⟨⟨_, _, hkeys, hkeys'⟩, ?_⟩
  rw [← keys_length, ← keys_length, hkeys, hkeys']
  simp
  omega

variable [LawfulRankBalance ω]

/-- The climb behind the exchange takes a level from the tree exactly if the search says so. -/
theorem swapped_levels {probe : Item κ ω → Int} {t t' : BinaryTree (Item κ ω)}
    (h : Swapped i l r e d j v) (hb : Balanced (.node i l r))
    (hpass : AllPassOn e ↔ LowersNode i l r) (hseek : seek probe t [] = (p, .node i l r))
    (hplug : plug p (.node i l r) = t)
    (hlevels : t'.height + (if AllPassOn (e ++ p.map (Frame.map sink)) then 1 else 0) =
      (plug (e ++ p.map (Frame.map sink)) (bin d j v .nil)).height) :
    (Lowers probe t → t'.height + 1 = t.height) ∧ (¬ Lowers probe t → t'.height = t.height) := by
  have hall : AllPassOn (e ++ p.map (Frame.map sink)) ↔ Lowers probe t := by
    rw [allPassOn_append, allPassOn_map sink sink_balance, hpass, lowers_seek probe t hseek]
  rw [swapped_height h hb, hplug] at hlevels
  rw [← hall]
  constructor
  · intro h1
    rwa [if_pos h1] at hlevels
  · intro h1
    rwa [if_neg h1] at hlevels

theorem swapped_above (h : Swapped i l r e d j v) (hb : Balanced (.node i l r))
    (hp : Above BalancedAt p (.node i l r)) :
    Balanced (bin d j v .nil) ∧
      Above BalancedAt (e ++ p.map (Frame.map sink)) (bin d j v .nil) := by
  obtain ⟨hbin, hsame⟩ := h.balanced hb
  obtain ⟨hw, he⟩ := (everywhere_plug e _).mp hbin
  exact ⟨hw,
    (above_append _ _ _).mpr ⟨he, above_balanced_map sink sink_balance p _ _ hsame.symm hp⟩⟩

theorem swapped_spaced (h : Swapped i l r e d j v) (hs : Spaced (plug p (.node i l r)))
    (hsize : weight (plug p (.node i l r)) < 2 ^ 30) :
    Spaced (plug (e ++ p.map (Frame.map sink)) v) ∧
      weight (plug (e ++ p.map (Frame.map sink)) v) + 1 ≤ weight (plug p (.node i l r)) := by
  have hle := weight_le_plug p _ hs
  obtain ⟨hv, hw⟩ := h.spaced ((everywhere_plug p _).mp hs).1 (by omega)
  rw [plug_append]
  exact sink_spaced p (.node i l r) (plug e v) hs hv hw hsize

end Swapped

/-! ## Unlinking and freeing -/

section Unlink

variable [HasNull κ] {m : Memory (avl_node κ ω)} {root : Nat} {c : List (Frame (Item κ ω))}

theorem delete_unlink_spec {d : Side} {j : Item κ ω} {v : BinaryTree (Item κ ω)}
    (h : Holds m root c (bin d j v .nil)) :
    ∃ m' n, delete_unlink m (some j.addr) = .ok (m', upper root c, (hangs c).sign) ∧
      m'.get j.addr = some n ∧ n.key = j.key ∧ n.rank_and_balance = j.word ∧ Holds m' root c v ∧
      j.addr ∉ root :: addrs (plug c v) ∧ m'.grants = m.grants := by
  have hcell : m.get j.addr = some (cellOn d j (ptr v) none (upper root c)) := h.get_bin
  obtain ⟨hv, -⟩ := h.owns_below
  obtain ⟨hnd, hnodup, hout⟩ := (distinct_iff root c _).mp h.distinct
  obtain ⟨hndv, -, hjv, -, -⟩ := (nodup_bin d j v .nil).mp hnodup
  have hj := hout j.addr ((mem_addrs_bin d j v .nil _).mpr (Or.inl rfl))
  have hvout : ∀ a ∈ addrs v, a ≠ root ∧ a ∉ outer c := fun a ha =>
    hout a ((mem_addrs_bin d j v .nil a).mpr (Or.inr (Or.inl ha)))
  have hchild : (if (cellOn d j (ptr v) none (upper root c)).left ≠ none then
      (cellOn d j (ptr v) none (upper root c)).left
      else if (cellOn d j (ptr v) none (upper root c)).right ≠ none then
      (cellOn d j (ptr v) none (upper root c)).right else none) = ptr v := by
    cases d <;> cases v <;> rfl
  obtain ⟨m1, hm1, hv1, t1⟩ := set_parent_of_spec (upper root c) hv hndv
  have haround : Around m1 root c (some j.addr) := by
    refine around_congr (ptr_bin d j v .nil ▸ h.around) ?_
    rintro a (rfl | ha)
    · exact t1.get _ fun hmem => (hvout _ hmem).1 rfl
    · exact t1.get _ fun hmem => (hvout _ hmem).2 ha
  obtain ⟨a, n, ha, hn, hl, -⟩ := load_upper haround hj.2
  obtain ⟨m2, a', hm2, haround2, ha', t2⟩ := set_child_spec (ptr v) haround hnd
  obtain rfl : a = a' := Option.some.inj (ha.symm.trans ha')
  have hav : ∀ x ∈ addrs v, x ∉ [a] := by
    intro x hx hmem
    obtain rfl := List.mem_singleton.mp hmem
    exact (upper_mem ha).elim (hvout x hx).1 (hvout x hx).2
  have haj : j.addr ≠ a := by
    rintro rfl
    exact (upper_mem ha).elim hj.1 hj.2
  have hcell2 : m2.get j.addr = some (cellOn d j (ptr v) none (upper root c)) := by
    rw [t2.get _ (by simpa using haj), t1.get _ hjv, hcell]
  refine ⟨m2, _, ?_, hcell2, cellOn_key .., cellOn_word .., ?_, ?_, by rw [t2.grants, t1.grants]⟩
  · rw [ha] at hm1 hm2 hchild
    simp only [delete_unlink, Memory.load_eq hcell, ok_bind, hchild, cellOn_parent, ha, hm1,
      Memory.load_eq hn]
    cases hs : hangs c
    · rw [hs] at hl hm2
      rw [if_pos (hl.mpr rfl).symm]
      simp only [set_child] at hm2
      rw [hm2]
      rfl
    · rw [hs] at hl hm2
      rw [if_neg fun h => by simpa using hl.mp h.symm]
      simp only [set_child] at hm2
      rw [hm2]
      rfl
  · refine ⟨haround2, t2.owns hv1 hav, ?_⟩
    exact (distinct_iff root c v).mpr ⟨hnd, hndv, hvout⟩
  · rw [List.mem_cons, mem_addrs_plug]
    tauto

theorem free_spec {t : BinaryTree (Item κ ω)} {a : Nat} {n : avl_node κ ω} (h : Holds m root c t)
    (ha : m.get a = some n) (hout : a ∉ root :: addrs (plug c t)) :
    ∃ m', m.free (some a) = .ok m' ∧ Holds m' root c t ∧ m'.grants = m.grants := by
  obtain ⟨m', hm', -, hrest, hg⟩ := Memory.free_eq ha
  exact ⟨m', hm', h.congr fun b hb => hrest b fun heq => hout (heq ▸ hb), hg⟩

end Unlink

/-! ## One round of the climb -/

section Rebalance

variable [RankBalance ω] [LawfulRankBalance ω] [HasNull κ] {m : Memory (avl_node κ ω)} {root : Nat}
  {c : List (Frame (Item κ ω))}

/-- A round at a node `p` whose subtree `v` on side `d` has lost a level. -/
structure Rebalanced (m : Memory (avl_node κ ω)) (root : Nat)
    (c : List (Frame (Item κ ω))) (d : Side) (p : Item κ ω) (v s : BinaryTree (Item κ ω))
    (m' : Memory (avl_node κ ω)) (u : BinaryTree (Item κ ω))
    (shorter : Bool) : Prop where
  holds : Holds m' root c u
  grants : m'.grants = m.grants
  labels : labels u = labels (bin d p v s)
  balanced : Balanced u
  height : u.height + (if shorter then 1 else 0) = max (v.height + 1) s.height + 1
  spaced : Spaced (bin d p v s) → weight (bin d p v s) < 2 ^ 30 →
    Spaced u ∧ weight u = weight (bin d p v s)

/-- `p` stands for a node that was balanced when `v` had one more level. -/
def Stale (d : Side) (p : Item κ ω) (v s : BinaryTree (Item κ ω)) : Prop :=
  (p.balance = d.sign * ((v.height : Int) + 1 - s.height) ∧ -1 ≤ p.balance ∧ p.balance ≤ 1) ∧
    Balanced v ∧ Balanced s

variable {d : Side} {p : Item κ ω} {v s : BinaryTree (Item κ ω)}

/-- Case 1: a level node leans to the other side. -/
theorem rebalance_level (h : Holds m root c (bin d p v s)) (hp : Stale d p v s)
    (h0 : p.balance = 0) :
    ∃ m' u, delete_rebalance m (some p.addr) d.sign = .ok (m', ptr u, false) ∧
      Rebalanced m root c d p v s m' u false := by
  obtain ⟨⟨hbal, -, -⟩, hv, hs⟩ := hp
  have hb : (if d.sign = -1 then (1 : Int) else -1) = -d.sign := by cases d <;> rfl
  have hheight : s.height = v.height + 1 := by
    rw [h0] at hbal
    cases d <;> simp only [Side.sign] at hbal <;> omega
  have hbound : -1 ≤ -d.sign ∧ -d.sign ≤ 1 := by cases d <;> decide
  obtain ⟨m1, hm1, h1, hg1⟩ := h.set_balance_bin (-d.sign)
  refine ⟨m1, _, ?_, h1, hg1, labels_set_balance .., ?_, ?_, fun hr _ => ?_⟩
  · have hword :
        AVL_GET_BALANCE (cellOn d p (ptr v) (ptr s) (upper root c)).rank_and_balance = 0 := by
      rw [cellOn_word]
      exact h0
    simp only [delete_rebalance, Memory.load_eq h.get_bin, ok_bind, hword, if_true, hb,
      hm1, ptr_bin, Item.setBalance_addr, pure_eq_ok]
  · rw [balanced_bin, Item.setBalance_balance p hbound.1 hbound.2]
    refine ⟨⟨?_, hbound⟩, hv, hs⟩
    rw [hheight]
    cases d <;> simp [Side.sign]
  · rw [bin_height]
    simp only [Bool.false_eq_true, if_false]
    omega
  · exact spaced_set_balance hbound.1 hbound.2 hr

/-- Case 2: the taller subtree got shorter. -/
theorem rebalance_taller (h : Holds m root c (bin d p v s)) (hp : Stale d p v s)
    (h0 : p.balance = d.sign) :
    ∃ m' u, delete_rebalance m (some p.addr) d.sign = .ok (m', ptr u, true) ∧
      Rebalanced m root c d p v s m' u true := by
  obtain ⟨⟨hbal, -, -⟩, hv, hs⟩ := hp
  have hne : ¬ d.sign = 0 := by cases d <;> decide
  have hheight : s.height = v.height := by
    rw [h0] at hbal
    cases d <;> simp only [Side.sign] at hbal <;> omega
  obtain ⟨m1, hm1, h1, hg1⟩ := h.set_balance_bin 0
  refine ⟨m1, _, ?_, h1, hg1, labels_set_balance .., ?_, ?_, fun hr _ => ?_⟩
  · have hword : AVL_GET_BALANCE (cellOn d p (ptr v) (ptr s) (upper root c)).rank_and_balance =
        d.sign := by
      rw [cellOn_word]
      exact h0
    simp only [delete_rebalance, Memory.load_eq h.get_bin, ok_bind, hword, if_neg hne, if_true, hm1,
      ptr_bin, Item.setBalance_addr, pure_eq_ok]
  · rw [balanced_bin, Item.setBalance_balance p (by decide) (by decide)]
    refine ⟨⟨?_, by decide, by decide⟩, hv, hs⟩
    rw [hheight]
    simp
  · rw [bin_height]
    simp only [if_true]
    omega
  · exact spaced_set_balance (by decide) (by decide) hr

omit [LawfulRankBalance ω] in
theorem rebalance_single_run {q : Item κ ω} {a b e : BinaryTree (Item κ ω)}
    (h : Holds m root c (bin d p (bin d q a b) e)) (bp bq : Int) :
    ∃ m1 m2 m3 m4 m5, set_parent m (some q.addr) (upper root c) = .ok m1 ∧
      single_rotate d m1 (some p.addr) (some q.addr) = .ok m2 ∧
      set_balance m2 (some q.addr) bq = .ok m3 ∧ set_balance m3 (some p.addr) bp = .ok m4 ∧
      relink_left m4 (upper root c) (some p.addr) (some q.addr) = .ok m5 ∧
      Holds m5 root c (single d p q bp bq a b e) ∧ m5.grants = m.grants := by
  obtain ⟨hq, he⟩ := h.owns_below
  have hnd := h.nodup
  simp only [nodup_bin d p] at hnd
  obtain ⟨hndq, -, hpq, hpe, hqe⟩ := hnd
  obtain ⟨m1, hm1, hq1, t1⟩ := set_parent_of_spec (upper root c) hq hndq
  have hp1 : m1.get p.addr = some (cellOn d p (some q.addr) (ptr e) (upper root c)) := by
    rw [t1.get _ hpq, h.get_bin, ptr_bin]
  have he1 : Owns m1 (some p.addr) e := t1.owns he fun x hx hmem => hqe x hmem hx
  obtain ⟨m2, hm2, -, m3, m4, hm3, hm4, hown, t4⟩ := single_rotate_spec hp1 hq1 he1 h.nodup bp bq
  have t : Touches (addrs (bin d p (bin d q a b) e)) m m4 :=
    (t1.trans t4).mono fun x hx => by
      rw [List.mem_append, mem_addrs_bin d p] at hx
      rw [mem_addrs_bin d p]
      tauto
  obtain ⟨haround, hsout, m5, hm5, haround5, hown5, hg5⟩ :=
    relink_spec h (ptr_bin ..) t hown (single_labels d p q bp bq a b e)
  have htop : ptr (single d p q bp bq a b e) = some q.addr := by
    rw [single, ptr_bin, Item.setBalance_addr, singleInner_addr]
  rw [htop] at hm5
  rw [ptr_bin] at hm1
  refine ⟨m1, m2, m3, m4, m5, hm1, hm2, hm3, hm4, ?_, h.replace haround5 hown5 ?_, hg5⟩
  · rw [relink_left_eq _ haround hsout, hm5]
  · rw [addrs, addrs, addrs_of_labels, addrs_of_labels, single_labels]

theorem rebalance_double_run {q r : Item κ ω} {a b e z : BinaryTree (Item κ ω)}
    (h : Holds m root c (bin d p (bin d q a (bin d r b e)) z)) :
    ∃ m1 m2 m3 m4 m5 m6, set_parent m (some r.addr) (upper root c) = .ok m1 ∧
      double_rotate d m1 (some p.addr) (some q.addr) (some r.addr) = .ok m2 ∧
      get_balance m2 (some r.addr) = .ok r.balance ∧
      set_balance m2 (some q.addr) (innerBalance d r.balance) = .ok m3 ∧
      set_balance m3 (some p.addr) (outerBalance d r.balance) = .ok m4 ∧
      set_balance m4 (some r.addr) 0 = .ok m5 ∧
      relink_left m5 (upper root c) (some p.addr) (some r.addr) = .ok m6 ∧
      Holds m6 root c (double d p q r a b e z) ∧ m6.grants = m.grants := by
  obtain ⟨hq, hz⟩ := h.owns_below
  have hnd := h.nodup
  simp only [nodup_bin d p, nodup_bin d q, mem_addrs_bin d q, not_or] at hnd
  obtain ⟨⟨hnda, hndr, hqa, hqr, har⟩, -, ⟨hpq, hpa, hpr⟩, hpz, hqz⟩ := hnd
  obtain ⟨hqc, ha, hr⟩ := (owns_bin _ _ _ _ _ _).mp hq
  obtain ⟨m1, hm1, hr1, t1⟩ := set_parent_of_spec (upper root c) hr hndr
  have hp1 : m1.get p.addr = some (cellOn d p (some q.addr) (ptr z) (upper root c)) := by
    rw [t1.get _ hpr, h.get_bin, ptr_bin]
  have hq1 : m1.get q.addr = some (cellOn d q (ptr a) (some r.addr) (some p.addr)) := by
    rw [t1.get _ hqr, hqc, ptr_bin]
  have ha1 : Owns m1 (some q.addr) a := t1.owns ha har
  have hz1 : Owns m1 (some p.addr) z := t1.owns hz fun x hx hmem => hqz x (Or.inr (Or.inr hmem)) hx
  obtain ⟨m2, hm2, hbal, -, m3, m4, m5, hm3, hm4, hm5, hown, t5⟩ :=
    double_rotate_spec hp1 hq1 hr1 ha1 hz1 h.nodup
  have t : Touches (addrs (bin d p (bin d q a (bin d r b e)) z)) m m5 :=
    (t1.trans t5).mono fun x hx => by
      rw [List.mem_append, mem_addrs_bin d p, mem_addrs_bin d q] at hx
      rw [mem_addrs_bin d p, mem_addrs_bin d q]
      tauto
  obtain ⟨haround, hsout, m6, hm6, haround6, hown6, hg6⟩ :=
    relink_spec h (ptr_bin ..) t hown (double_labels d p q r a b e z)
  have htop : ptr (double d p q r a b e z) = some r.addr := by
    rw [double, ptr_bin, Item.setBalance_addr, doubleTop_addr]
  rw [htop] at hm6
  rw [ptr_bin] at hm1
  refine ⟨m1, m2, m3, m4, m5, m6, hm1, hm2, hbal, hm3, hm4, hm5, ?_,
    h.replace haround6 hown6 ?_, hg6⟩
  · rw [relink_left_eq _ haround hsout, hm6]
  · rw [addrs, addrs, addrs_of_labels, addrs_of_labels, double_labels]

/-- Case 3a: a single rotation at a level child keeps the height. -/
theorem rebalance_single_level {q : Item κ ω} {a b e : BinaryTree (Item κ ω)}
    (h : Holds m root c (bin d p (bin d q a b) e)) (hp : Stale d.flip p e (bin d q a b))
    (h0 : p.balance = d.sign) (hq : q.balance = 0) :
    ∃ m' u, delete_rebalance m (some p.addr) d.flip.sign = .ok (m', ptr u, false) ∧
      Rebalanced m root c d.flip p e (bin d q a b) m' u false := by
  obtain ⟨⟨hbal, -, -⟩, he, hs⟩ := hp
  obtain ⟨⟨hqb, -, -⟩, ha, hb⟩ := (balanced_bin d q a b).mp hs
  obtain ⟨m1, m2, m3, m4, m5, hm1, hm2, hm3, hm4, hm5, h5, hg5⟩ :=
    rebalance_single_run h d.sign (-d.sign)
  have hab : a.height = b.height := by
    rw [hq] at hqb
    cases d <;> simp only [Side.sign] at hqb <;> omega
  have hbe : b.height = e.height + 1 := by
    rw [h0, bin_height] at hbal
    cases d <;> simp only [Side.sign, Side.flip] at hbal <;> omega
  have hp1 : -1 ≤ d.sign ∧ d.sign ≤ 1 := by cases d <;> decide
  have hq1 : -1 ≤ -d.sign ∧ -d.sign ≤ 1 := by cases d <;> decide
  have hcell := h.get_bin
  rw [ptr_bin] at hcell
  have hword : AVL_GET_BALANCE p.word = d.sign := h0
  have hqword : get_balance m (some q.addr) = .ok q.balance :=
    get_balance_cell ((owns_bin _ _ _ _ _ _).mp h.owns_below.1).1
  refine ⟨m5, _, ?_, h5, hg5, ?_, ?_, ?_, ?_⟩
  · rw [single, ptr_bin, Item.setBalance_addr, singleInner_addr]
    cases d <;>
      simp only [delete_rebalance, Memory.load_eq hcell, ok_bind, cellOn, cell,
        Side.flip, Side.sign, hword, hqword, hq, Int.reduceNeg, Int.reduceEq, reduceIte,
        single_rotate_right_eq, single_rotate_left_eq, hm1, hm2, pure_eq_ok,
        neg_neg] at hm3 hm4 ⊢ <;>
      rw [hm3, ok_bind, hm4, ok_bind, hm5, ok_bind]
  · rw [bin_flip]
    exact single_labels ..
  · refine single_balanced d p q d.sign (-d.sign) a b e ha hb he ?_ hp1.1 hp1.2 ?_ hq1.1 hq1.2
    · rw [hbe]
      simp
    · rw [hab, hbe]
      cases d <;> simp [Side.sign]
  · rw [single_height, bin_height]
    simp only [Bool.false_eq_true, if_false]
    omega
  · rw [bin_flip]
    exact fun hr hsize =>
      single_spaced d p q d.sign (-d.sign) a b e hr hsize hp1.1 hp1.2 hq1.1 hq1.2

/-- Case 3b: a single rotation at a child that leans the same way loses a level. -/
theorem rebalance_single_lean {q : Item κ ω} {a b e : BinaryTree (Item κ ω)}
    (h : Holds m root c (bin d p (bin d q a b) e)) (hp : Stale d.flip p e (bin d q a b))
    (h0 : p.balance = d.sign) (hq : q.balance = d.sign) :
    ∃ m' u, delete_rebalance m (some p.addr) d.flip.sign = .ok (m', ptr u, true) ∧
      Rebalanced m root c d.flip p e (bin d q a b) m' u true := by
  obtain ⟨⟨hbal, -, -⟩, he, hs⟩ := hp
  obtain ⟨m1, m2, m3, m4, m5, hm1, hm2, hm3, hm4, hm5, h5, hg5⟩ := rebalance_single_run h 0 0
  have hse : (bin d q a b).height = e.height + 2 := by
    rw [h0] at hbal
    cases d <;> simp only [Side.sign, Side.flip] at hbal <;> omega
  obtain ⟨hbalanced, hheight⟩ := single_settles (p := p) hs he hq hse
  have hcell := h.get_bin
  rw [ptr_bin] at hcell
  have hword : AVL_GET_BALANCE p.word = d.sign := h0
  have hqword : get_balance m (some q.addr) = .ok q.balance :=
    get_balance_cell ((owns_bin _ _ _ _ _ _).mp h.owns_below.1).1
  refine ⟨m5, _, ?_, h5, hg5, ?_, hbalanced, ?_, ?_⟩
  · rw [single, ptr_bin, Item.setBalance_addr, singleInner_addr]
    cases d <;>
      simp only [delete_rebalance, Memory.load_eq hcell, ok_bind, cellOn, cell,
        Side.flip, Side.sign, hword, hqword, hq, Int.reduceNeg, Int.reduceEq, reduceIte,
        single_rotate_right_eq, single_rotate_left_eq, hm1, hm2, hm3, hm4, hm5, pure_eq_ok]
  · rw [bin_flip]
    exact single_labels ..
  · rw [hheight, hse]
    simp
  · rw [bin_flip]
    exact fun hr hsize =>
      single_spaced d p q 0 0 a b e hr hsize (by decide) (by decide) (by decide) (by decide)

/-- Case 3c: a double rotation at a child that leans the other way loses a level. -/
theorem rebalance_double {q : Item κ ω} {a y z : BinaryTree (Item κ ω)}
    (h : Holds m root c (bin d p (bin d q a y) z)) (hp : Stale d.flip p z (bin d q a y))
    (h0 : p.balance = d.sign) (hq : q.balance = -d.sign) :
    ∃ m' u, delete_rebalance m (some p.addr) d.flip.sign = .ok (m', ptr u, true) ∧
      Rebalanced m root c d.flip p z (bin d q a y) m' u true := by
  obtain ⟨⟨hbal, -, -⟩, hz, hs⟩ := hp
  have hsz : (bin d q a y).height = z.height + 2 := by
    rw [h0] at hbal
    cases d <;> simp only [Side.sign, Side.flip] at hbal <;> omega
  have hy : y ≠ .nil := by
    rintro rfl
    obtain ⟨⟨hqb, -, -⟩, -⟩ := (balanced_bin d q a .nil).mp hs
    rw [hq] at hqb
    cases d
    · simp [Side.sign] at hqb
      omega
    · simp [Side.sign] at hqb
  obtain ⟨r, b, e, rfl⟩ := exists_bin d y hy
  obtain ⟨m1, m2, m3, m4, m5, m6, hm1, hm2, hbalr, hm3, hm4, hm5, hm6, h6, hg6⟩ :=
    rebalance_double_run h
  obtain ⟨hbalanced, hheight⟩ := double_settles (p := p) hs hz hq hsz
  have hcell := h.get_bin
  rw [ptr_bin] at hcell
  have hqcell := ((owns_bin _ _ _ _ _ _).mp h.owns_below.1).1
  rw [ptr_bin] at hqcell
  have hword : AVL_GET_BALANCE p.word = d.sign := h0
  have hqword : get_balance m (some q.addr) = .ok q.balance := get_balance_cell hqcell
  refine ⟨m6, _, ?_, h6, hg6, ?_, hbalanced, ?_, ?_⟩
  · rw [double, ptr_bin, Item.setBalance_addr, doubleTop_addr]
    have houter :
      (if r.balance = -d.sign then (0 : Int) else if r.balance = d.sign then -d.sign else 0) =
        outerBalance d r.balance := by
      cases d <;> simp only [outerBalance, Side.sign] <;> split_ifs <;> omega
    rw [← houter] at hm4
    cases d <;>
      simp only [delete_rebalance, Memory.load_eq hcell, Memory.load_eq hqcell, ok_bind,
        cellOn, cell, innerBalance, Side.flip, Side.sign, hword, hqword, hq, Int.reduceNeg,
        Int.reduceEq, reduceIte, double_rotate_right_eq, double_rotate_left_eq, hm1, hm2, hbalr,
        pure_eq_ok, neg_neg] at hm3 hm4 ⊢ <;>
      exact run_bind hm3 (run_bind hm4 (run_bind hm5 (run_bind hm6 rfl)))
  · rw [bin_flip]
    exact double_labels ..
  · rw [hheight, hsz]
    simp
  · rw [bin_flip]
    exact double_spaced d p q r a b e z

/-- **One round.** Whatever the three balance factors are, the round gives back a
balanced subtree. -/
theorem delete_rebalance_spec (h : Holds m root c (bin d p v s)) (hp : Stale d p v s) :
    ∃ m' u shorter, delete_rebalance m (some p.addr) d.sign = .ok (m', ptr u, shorter) ∧
      Rebalanced m root c d p v s m' u shorter ∧ (shorter = true ↔ PassesOn d p s) := by
  obtain ⟨⟨hbal, hp1, hp2⟩, -, hs⟩ := id hp
  by_cases h0 : p.balance = 0
  · obtain ⟨m', u, hrun, hr⟩ := rebalance_level h hp h0
    refine ⟨m', u, false, hrun, hr, ?_⟩
    rw [PassesOn, h0]
    cases d <;> simp [Side.sign]
  by_cases h1 : p.balance = d.sign
  · obtain ⟨m', u, hrun, hr⟩ := rebalance_taller h hp h1
    exact ⟨m', u, true, hrun, hr, iff_of_true rfl (.inl h1)⟩
  have h2 : p.balance = d.flip.sign := by
    cases d <;> simp only [Side.sign, Side.flip] at h1 ⊢ <;> omega
  have hsne : s ≠ .nil := by
    rintro rfl
    rw [h2] at hbal
    cases d <;> simp only [Side.sign, Side.flip, BinaryTree.height] at hbal <;> omega
  obtain ⟨q, a, b, rfl⟩ := exists_bin d.flip s hsne
  obtain ⟨⟨-, hq1, hq2⟩, -⟩ := (balanced_bin _ q a b).mp hs
  rw [← bin_flip] at h
  have hp' : Stale d.flip.flip p v (bin d.flip q a b) := by
    rw [Side.flip_flip]
    exact hp
  have htop : PassesOn d p (bin d.flip q a b) ↔ q.balance ≠ 0 := by
    have hflip : p.balance = -d.sign := by
      cases d <;> exact h2
    rw [PassesOn, or_iff_right h1, and_iff_right hflip]
    cases d <;> rfl
  by_cases h3 : q.balance = 0
  · obtain ⟨m', u, hrun, hr⟩ := rebalance_single_level h hp' h2 h3
    rw [Side.flip_flip] at hrun hr
    exact ⟨m', u, false, hrun, hr, by simp [htop, h3]⟩
  by_cases h4 : q.balance = d.flip.sign
  · obtain ⟨m', u, hrun, hr⟩ := rebalance_single_lean h hp' h2 h4
    rw [Side.flip_flip] at hrun hr
    exact ⟨m', u, true, hrun, hr, iff_of_true rfl (htop.mpr h3)⟩
  have h5 : q.balance = -d.flip.sign := by
    cases d <;> simp only [Side.sign, Side.flip] at h4 ⊢ <;> omega
  obtain ⟨m', u, hrun, hr⟩ := rebalance_double h hp' h2 h5
  rw [Side.flip_flip] at hrun hr
  exact ⟨m', u, true, hrun, hr, iff_of_true rfl (htop.mpr h3)⟩

/-! ## The climb -/

omit [LawfulRankBalance ω] in
theorem Rebalanced.spaced_above {m' : Memory (avl_node κ ω)} {u : BinaryTree (Item κ ω)}
    {shorter : Bool} (h : Rebalanced m root c d p v s m' u shorter)
    (hs : Spaced (plug c (bin d p v s))) (hsize : weight (plug c (bin d p v s)) < 2 ^ 30) :
    Spaced (plug c u) ∧ weight (plug c u) = weight (plug c (bin d p v s)) := by
  obtain ⟨hbin, hup⟩ := (everywhere_plug _ _).mp hs
  have hle := weight_le_plug c (bin d p v s) hs
  obtain ⟨hu, hw⟩ := h.spaced hbin (by omega)
  exact spaced_plug_congr c _ _ hw.symm hu hup

theorem delete_climb_round {f : Frame (Item κ ω)} (h : Holds m root (f :: c) v)
    (hstale : Stale f.side f.value v f.sibling) :
    ∃ m' u shorter, (∀ fuel, delete_climb (fuel + 1) m (upper root (f :: c)) (hangs (f :: c)).sign =
        if shorter = true then delete_climb fuel m' (upper root c) (hangs c).sign else .ok m') ∧
      Rebalanced m root c f.side f.value v f.sibling m' u shorter ∧
      (shorter = true ↔ PassesOn f.side f.value f.sibling) := by
  have hcell := h.around.1
  have h' := holds_cons.mp h
  rw [fill_eq_bin] at h'
  obtain ⟨m', u, shorter, hrun, hdone, hpass⟩ := delete_rebalance_spec h' hstale
  refine ⟨m', u, shorter, fun fuel => ?_, hdone, hpass⟩
  -- the new top of the subtree, and the node above it
  obtain ⟨j, y, z, rfl⟩ : ∃ j y z, u = .node j y z := by
    cases u with
    | nil =>
      have hheight := hdone.height
      cases shorter <;> simp at hheight
    | node j y z => exact ⟨j, y, z, rfl⟩
  obtain ⟨hnd, -, hout⟩ := (distinct_iff _ _ _).mp hdone.holds.distinct
  have hjout := (hout j.addr (by simp)).2
  obtain ⟨a, n, ha, hn, hleft, -⟩ := load_upper hdone.holds.around hjout
  have hside : (if some j.addr = n.left then (-1 : Int) else 1) = (hangs c).sign := by
    cases hs : hangs c
    · exact if_pos (hleft.mpr hs).symm
    · exact if_neg fun heq => by simp [hleft.mp heq.symm] at hs
  rw [ptr] at hrun
  change delete_climb (fuel + 1) m (some f.value.addr) f.side.sign = _
  simp only [delete_climb, Memory.load_eq hcell, ok_bind, cellOn_parent, ha, hrun,
    Memory.load_eq hdone.holds.get_node, cell, Memory.load_eq hn, hside, pure_eq_ok]

/-- **The climb.** The frames were balanced when the hole had one more level. -/
theorem delete_climb_spec (c : List (Frame (Item κ ω))) :
    ∀ (v w : BinaryTree (Item κ ω)) (m : Memory (avl_node κ ω)) (fuel : Nat), Holds m root c v →
      Balanced v → w.height = v.height + 1 → Above BalancedAt c w → c.length < fuel →
      ∃ m' t', delete_climb fuel m (upper root c) (hangs c).sign = .ok m' ∧ Holds m' root [] t' ∧
        m'.grants = m.grants ∧ labels t' = labels (plug c v) ∧ Balanced t' ∧
        (Spaced (plug c v) → weight (plug c v) < 2 ^ 30 →
        Spaced t' ∧ weight t' = weight (plug c v)) ∧
        t'.height + (if AllPassOn c then 1 else 0) = (plug c w).height := by
  induction c with
  | nil =>
    intro v w m fuel h hv hw hc hfuel
    obtain ⟨fuel, rfl⟩ : ∃ n, fuel = n + 1 := ⟨fuel - 1, by omega⟩
    obtain ⟨n, hn, -, -, hparent⟩ := h.load_root
    refine ⟨m, v, ?_, h, rfl, rfl, hv, fun hs _ => ⟨hs, rfl⟩, by simp [AllPassOn, hw]⟩
    simp only [upper, delete_climb, hn, ok_bind, hparent, pure_eq_ok]
  | cons f c ih =>
    intro v w m fuel h hv hw hc hfuel
    rw [List.length_cons] at hfuel
    obtain ⟨fuel, rfl⟩ : ∃ n, fuel = n + 1 := ⟨fuel - 1, by omega⟩
    obtain ⟨hf, hsib, hc⟩ := hc
    have hstale : Stale f.side f.value v f.sibling := by
      refine ⟨?_, hv, hsib⟩
      cases hs : f.side <;> rw [hs] at hf <;> unfold BalancedAt at hf <;>
        dsimp only [Side.sign] at hf ⊢ <;>
        omega
    obtain ⟨m1, u, shorter, hstep, hdone, hpass⟩ := delete_climb_round h hstale
    have hheight := hdone.height
    rw [← hw, ← height_fill] at hheight
    have hlab : labels (plug c u) = labels (plug (f :: c) v) := by
      rw [plug_cons, fill_eq_bin]
      exact labels_plug_congr c _ _ hdone.labels
    have hspace : Spaced (plug (f :: c) v) → weight (plug (f :: c) v) < 2 ^ 30 →
        Spaced (plug c u) ∧ weight (plug c u) = weight (plug (f :: c) v) := by
      rw [plug_cons, fill_eq_bin]
      exact hdone.spaced_above
    cases shorter with
    | false =>
      have hsame : (f.fill w).height = u.height := by simpa using hheight.symm
      refine ⟨m1, _, hstep fuel, holds_plug.mp hdone.holds, hdone.grants, hlab, ?_, hspace, ?_⟩
      · exact (everywhere_plug _ _).mpr ⟨hdone.balanced, above_balanced_congr c _ _ hsame hc⟩
      · have hstop : ¬ AllPassOn (f :: c) := by
          intro hall
          simpa using hpass.mpr ((allPassOn_cons f c).mp hall).1
        rw [if_neg hstop, plug_cons, height_plug c _ _ hsame]
        rfl
    | true =>
      obtain ⟨m2, t', hm2, h2, hg2, hlab2, hbal2, hspace2, hlevels⟩ := ih u (f.fill w) m1 fuel
        hdone.holds hdone.balanced (by simpa using hheight.symm) hc (by omega)
      refine ⟨m2, t', (hstep fuel).trans hm2, h2, by rw [hg2, hdone.grants], by rw [hlab2, hlab],
        hbal2, ?_, ?_⟩
      · intro hr hsize
        obtain ⟨hs1, hw1⟩ := hspace hr hsize
        obtain ⟨hs2, hw2⟩ := hspace2 hs1 (hw1 ▸ hsize)
        exact ⟨hs2, hw2.trans hw1⟩
      · simp only [allPassOn_cons, hpass.mp rfl, true_and]
        exact hlevels

end Rebalance

/-! ## The whole deletion -/

section Whole

variable [RankBalance ω] [LawfulRankBalance ω] [HasNull κ]

/-- What a successful `avl_delete` leaves: the tree `t'` without the node `i` that was found. -/
structure DeleteDone (tree tree' : avl_tree κ ω) (key : κ) (i : Item κ ω)
    (t t' : BinaryTree (Item κ ω)) : Prop where
  stores : Stores tree' t'
  keys : ∃ A B, keys t = A ++ i.key :: B ∧ keys t' = A ++ B
  found : tree.compare_fun key i.key = 0
  spaced : Spaced t → weight t < 2 ^ 30 → Spaced t' ∧ weight t' + 1 ≤ weight t
  compare_fun : tree'.compare_fun = tree.compare_fun
  root : tree'.root = tree.root
  height : tree'.height = tree.height

theorem delete_absent_stands {tree : avl_tree κ ω} {key : κ} {t : BinaryTree (Item κ ω)}
    {p : List (Frame (Item κ ω))} (free_key_fun : Option (κ → Int)) (h : Stands tree t)
    (hseek : seek (fun i => tree.compare_fun key i.key) t [] = (p, .nil)) :
    ∃ m', avl_delete tree key free_key_fun = .ok (-1, { tree with mem := m' }, []) ∧
      m'.grants = tree.mem.grants ∧ Stands { tree with mem := m' } (plug (lost p []) .nil) ∧
      labels (plug (lost p []) .nil) = labels t := by
  obtain ⟨root, hroot, hheld⟩ := h.held
  obtain ⟨n, hn, hright, -, -⟩ := hheld.load_root
  have hplug := (seek_spec (fun i => tree.compare_fun key i.key) t []).1
  rw [hseek, plug_nil] at hplug
  have hlab : labels (plug (lost p []) .nil) = labels t := by rw [lost_labels, hplug]
  have hstands : ∀ m' : Memory (avl_node κ ω), Holds m' root [] (plug (lost p []) .nil) →
      Stands { tree with mem := m' } (plug (lost p []) .nil) := by
    intro m' hh
    refine ⟨⟨root, hroot, hh⟩, lost_balanced p .nil (hplug.symm ▸ h.balanced), ?_⟩
    rw [h.length, ← labels_length, ← labels_length, hlab]
  rw [plug_nil] at hright
  cases t with
  | nil =>
    rw [seek, Prod.mk.injEq] at hseek
    obtain ⟨rfl, -⟩ := hseek
    refine ⟨tree.mem, ?_, rfl, hstands tree.mem hheld, hlab⟩
    simp only [avl_delete, hroot, hn, ok_bind, hright, ptr, pure_eq_ok]
    rw [← hroot]
  | node i l r =>
    have hbound := hheld.numNodes_lt_size
    rw [plug_nil] at hbound
    have hheight := BinaryTree.height_le_numNodes (.node i l r)
    obtain ⟨m', hm', hg, hh⟩ := delete_search_spec tree.compare_fun key root (tree.mem.size + 1)
      (.node i l r) [] tree.mem (tree.mem.size + 1) i l r rfl hheld (by omega)
        (by rw [List.length_nil]; omega)
    rw [hseek] at hm' hh
    refine ⟨m', ?_, hg, hstands m' (holds_plug.mp hh), hlab⟩
    simp only [avl_delete, hroot, hn, ok_bind, hright, ptr, hm', pure_eq_ok]

theorem avl_delete_absent {tree : avl_tree κ ω} {key : κ} {t : BinaryTree (Item κ ω)}
    {p : List (Frame (Item κ ω))} (free_key_fun : Option (κ → Int)) (h : Stores tree t)
    (hseek : seek (fun i => tree.compare_fun key i.key) t [] = (p, .nil)) :
    ∃ m', avl_delete tree key free_key_fun = .ok (-1, { tree with mem := m' }, []) ∧
      Stores { tree with mem := m' } (plug (lost p []) .nil) ∧
      labels (plug (lost p []) .nil) = labels t := by
  obtain ⟨m', hm', hg, hst, hlab⟩ := delete_absent_stands free_key_fun h.stands hseek
  exact ⟨m', hm', hst.stores fun n => hg ▸ h.generous n, hlab⟩

/-- `avl_delete` up to the call of `free`: the node to free, and where the climb starts. -/
def delete_front (tree : avl_tree κ ω) (key : κ) :
    C (Memory (avl_node κ ω) × Option (Ptr × Ptr × Int)) := do
  let root ← tree.mem.load tree.root
  match root.right with
  | none => return (tree.mem, none)
  | some top =>
    let bound := tree.mem.size + 1
    let (m, x) ← delete_search tree.compare_fun key tree.root bound bound tree.mem (some top)
    match x with
    | none => return (m, none)
    | some x =>
      let (m, x) ← delete_swap bound m (some x)
      let (m, p, shortened_side) ← delete_unlink m x
      return (m, some (x, p, shortened_side))

omit [LawfulRankBalance ω] [HasNull κ] in
theorem avl_delete_eq (tree : avl_tree κ ω) (key : κ) (free_key_fun : Option (κ → Int)) :
    avl_delete tree key free_key_fun = (do
      let (m, found) ← delete_front tree key
      match found with
      | none => return (-1, { tree with mem := m }, [])
      | some (x, p, shortened_side) =>
        let n ← m.load x
        let freed := match free_key_fun with
          | none => []
          | some _ => [n.key]
        let m ← m.free x
        let m ← delete_climb (tree.mem.size + 1) m p shortened_side
        return (0, { tree with mem := m, length := tree.length - 1 }, freed)) := by
  simp only [avl_delete, delete_front, bind_assoc]
  refine bind_congr fun root => ?_
  cases root.right with
  | none => rfl
  | some top =>
    simp only [bind_assoc]
    refine bind_congr fun searched => ?_
    obtain ⟨m, x⟩ := searched
    cases x with
    | none => rfl
    | some x =>
      refine (bind_congr fun swapped => ?_).trans (bind_assoc ..).symm
      refine (bind_congr fun unlinked => ?_).trans (bind_assoc ..).symm
      exact (pure_bind ..).symm

theorem delete_front_spec {tree : avl_tree κ ω} {key : κ} {root : Nat} {t : BinaryTree (Item κ ω)}
    {p : List (Frame (Item κ ω))} {i : Item κ ω} {l r : BinaryTree (Item κ ω)}
    (hroot : tree.root = some root) (h : Holds tree.mem root [] t)
    (hseek : seek (fun i => tree.compare_fun key i.key) t [] = (p, .node i l r)) :
    ∃ m e d j v n, delete_front tree key =
        .ok (m, some (some j.addr, upper root (e ++ p.map (Frame.map sink)),
          (hangs (e ++ p.map (Frame.map sink))).sign)) ∧
      m.get j.addr = some n ∧ n.key = i.key ∧ n.rank_and_balance = j.word ∧
      Holds m root (e ++ p.map (Frame.map sink)) v ∧
      j.addr ∉ root :: addrs (plug (e ++ p.map (Frame.map sink)) v) ∧ m.grants = tree.mem.grants ∧
      Swapped i l r e d j v ∧ (AllPassOn e ↔ LowersNode i l r) := by
  obtain ⟨n, hn, hright, -, -⟩ := h.load_root
  obtain ⟨hplug, -, -, -⟩ := seek_spec (fun i => tree.compare_fun key i.key) t []
  rw [hseek] at hplug
  have hbound := h.numNodes_lt_size
  rw [plug_nil] at hplug hright hbound
  have hheight := t.height_le_numNodes
  obtain ⟨i', l', r', ht⟩ : ∃ i' l' r', t = .node i' l' r' := by
    cases t with
    | nil => simp [seek] at hseek
    | node i' l' r' => exact ⟨i', l', r', rfl⟩
  obtain ⟨m1, hm1, hg1, h1⟩ := delete_search_spec tree.compare_fun key root (tree.mem.size + 1) t []
    tree.mem (tree.mem.size + 1) i' l' r' ht h (by omega) (by rw [List.length_nil]; omega)
  rw [hseek] at hm1 h1
  dsimp only at h1
  rw [List.append_nil] at h1
  have hl : l.height ≤ tree.mem.size + 1 := by
    have hle := numNodes_le_plug p (.node i l r)
    have hlh := l.height_le_numNodes
    rw [hplug] at hle
    simp only [BinaryTree.numNodes] at hle
    omega
  obtain ⟨m2, e, d, j, v, hm2, h2, hg2, hswap, hpass⟩ := delete_swap_spec h1 hl
  obtain ⟨m3, nx, hm3, hnx, hkey, hword, h3, hout, hg3⟩ := delete_unlink_spec h2
  refine ⟨m3, e, d, j, v, nx, ?_, hnx, hkey.trans hswap.key, hword, h3, hout, by rw [hg3, hg2, hg1],
    hswap, hpass⟩
  rw [ht] at hright
  simp only [ptr] at hright hm1
  simp only [delete_front, hroot, hn, ok_bind, hright, hm1, hm2, hm3, pure_eq_ok]

theorem delete_present_stands {tree : avl_tree κ ω} {key : κ} {t : BinaryTree (Item κ ω)}
    {p : List (Frame (Item κ ω))} {i : Item κ ω} {l r : BinaryTree (Item κ ω)}
    (free_key_fun : Option (κ → Int)) (h : Stands tree t)
    (hseek : seek (fun i => tree.compare_fun key i.key) t [] = (p, .node i l r)) :
    ∃ tree' t', avl_delete tree key free_key_fun =
        .ok (0, tree', if free_key_fun.isSome then [i.key] else []) ∧
      tree'.mem.grants = tree.mem.grants ∧ Stands tree' t' ∧ tree'.compare_fun = tree.compare_fun ∧
      (∃ A B, keys t = A ++ i.key :: B ∧ keys t' = A ++ B) ∧ tree.compare_fun key i.key = 0 ∧
      (Spaced t → weight t < 2 ^ 30 → Spaced t' ∧ weight t' + 1 ≤ weight t) ∧
      (Stores tree' t' → DeleteDone tree tree' key i t t') ∧
      (Lowers (fun i => tree.compare_fun key i.key) t → t'.height + 1 = t.height) ∧
      (¬ Lowers (fun i => tree.compare_fun key i.key) t → t'.height = t.height) := by
  obtain ⟨root, hroot, hheld⟩ := h.held
  obtain ⟨hplug, -, hfound, -⟩ := seek_spec (fun i => tree.compare_fun key i.key) t []
  have hbound := hheld.numNodes_lt_size
  rw [hseek] at hplug hfound
  rw [plug_nil] at hplug hbound
  dsimp only at hplug
  -- the search, the exchange, the unlinking and the climb
  obtain ⟨m3, e, d, j, v, nx, hfront, hnx, hkey, -, h3, hout, hg3, hswap, hpass⟩ :=
    delete_front_spec hroot hheld hseek
  obtain ⟨m4, hm4, h4, hg4⟩ := free_spec h3 hnx hout
  obtain ⟨hnode, habove⟩ := (everywhere_plug p _).mp (hplug.symm ▸ h.balanced : Balanced (plug p _))
  obtain ⟨hw, hc⟩ := swapped_above hswap hnode habove
  have hcount := (swapped_removes (p := p) hswap rfl).2
  have hlen := length_le_numNodes (e ++ p.map (Frame.map sink)) v
  rw [hplug] at hcount
  obtain ⟨m5, t', hm5, h5, hg5, hlab, hbal, hspace, hlevels⟩ :=
    delete_climb_spec _ v (bin d j v .nil) m4
      (tree.mem.size + 1) h4 ((balanced_bin d j v .nil).mp hw).2.1 (by simp) hc (by omega)
  obtain ⟨hkeys, hsame⟩ := swapped_removes hswap hlab
  rw [hplug] at hkeys hsame
  have hspaced : Spaced t → weight t < 2 ^ 30 → Spaced t' ∧ weight t' + 1 ≤ weight t := by
    intro hs hsize
    rw [← hplug] at hs hsize ⊢
    obtain ⟨hs', hw'⟩ := swapped_spaced hswap hs hsize
    obtain ⟨hs'', hw''⟩ := hspace hs' (by omega)
    exact ⟨hs'', by omega⟩
  refine ⟨{ tree with root := some root, mem := m5, length := tree.length - 1 }, t', ?_, ?_,
    ⟨⟨root, rfl, h5⟩, hbal, ?_⟩, rfl, hkeys, hfound i l r rfl, hspaced,
    fun hst => ⟨hst, hkeys, hfound i l r rfl, hspaced, rfl, hroot.symm, rfl⟩,
    swapped_levels hswap hnode hpass hseek hplug hlevels⟩
  · simp only [avl_delete_eq, hfront, ok_bind, Memory.load_eq hnx, hm4, hm5, pure_eq_ok, hroot]
    cases free_key_fun
    · rfl
    · simp [hkey]
  · rw [hg5, hg4, hg3]
  · rw [h.length, ← hsame, BitVec.ofNat_add]
    exact BitVec.add_sub_cancel _ _

omit [LawfulRankBalance ω] in
theorem DeleteDone.ranked {tree tree' : avl_tree κ ω} {key : κ} {i : Item κ ω}
    {t t' : BinaryTree (Item κ ω)} (h : DeleteDone tree tree' key i t t') (hr : Ranked t)
    (hsize : t.numNodes < 2 ^ 30) : Ranked t' := by
  obtain ⟨hspaced, hweight⟩ := (ranked_iff t).mp hr
  obtain ⟨A, B, hA, hB⟩ := h.keys
  have hcount := congrArg List.length hA
  have hcount' := congrArg List.length hB
  simp only [keys_length, List.length_append, List.length_cons] at hcount hcount'
  obtain ⟨hspaced', hle⟩ := h.spaced hspaced (by omega)
  have hge := hspaced'.numNodes_le
  exact (ranked_iff t').mpr ⟨hspaced', by omega⟩

theorem avl_delete_present {tree : avl_tree κ ω} {key : κ} {t : BinaryTree (Item κ ω)}
    {p : List (Frame (Item κ ω))} {i : Item κ ω} {l r : BinaryTree (Item κ ω)}
    (free_key_fun : Option (κ → Int)) (h : Stores tree t)
    (hseek : seek (fun i => tree.compare_fun key i.key) t [] = (p, .node i l r)) :
    ∃ tree' t', avl_delete tree key free_key_fun =
        .ok (0, tree', if free_key_fun.isSome then [i.key] else []) ∧
      DeleteDone tree tree' key i t t' := by
  obtain ⟨tree', t', hdel, hg, hst, -, -, -, -, hdone, -⟩ :=
    delete_present_stands free_key_fun h.stands hseek
  exact ⟨tree', t', hdel, hdone (hst.stores fun n => hg ▸ h.generous n)⟩

end Whole

end Avl
