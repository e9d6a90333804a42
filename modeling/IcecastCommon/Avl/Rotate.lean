import IcecastCommon.Avl.Shape

/-!
# The pointer moves of the rotations

Each rotation, seen from the cells it touches. The parent pointer of the node that comes to
the top stays as it was: `avl_insert` writes it afterwards and `avl_delete` before.
-/

namespace Avl

open Lib

variable {κ ω : Type}

/-- Only the cells at `S` may differ. -/
structure Touches (S : List Nat) (m m' : Memory (avl_node κ ω)) : Prop where
  get : ∀ a, a ∉ S → m'.get a = m.get a
  grants : m'.grants = m.grants

theorem Touches.trans {S T : List Nat} {m m' m'' : Memory (avl_node κ ω)} (h : Touches S m m')
    (h' : Touches T m' m'') : Touches (S ++ T) m m'' := by
  constructor
  · intro a ha
    rw [List.mem_append, not_or] at ha
    rw [h'.get a ha.2, h.get a ha.1]
  · rw [h'.grants, h.grants]

theorem Touches.mono {S T : List Nat} {m m' : Memory (avl_node κ ω)} (h : Touches S m m')
    (hST : ∀ a ∈ S, a ∈ T) : Touches T m m' :=
  ⟨fun a ha => h.get a fun hS => ha (hST a hS), h.grants⟩

theorem Touches.owns {S : List Nat} {m m' : Memory (avl_node κ ω)} (h : Touches S m m')
    {t : BinaryTree (Item κ ω)} {parent : Ptr} (ht : Owns m parent t) (hS : ∀ a ∈ addrs t, a ∉ S) :
    Owns m' parent t :=
  owns_congr ht fun a ha => h.get a (hS a ha)

theorem Touches.owns_apart {S : List Nat} {m m' : Memory (avl_node κ ω)} (h : Touches S m m')
    {t : BinaryTree (Item κ ω)} {parent : Ptr} (ht : Owns m parent t) (hS : ∀ a ∈ S, a ∉ addrs t) :
    Owns m' parent t :=
  h.owns ht fun a ha hmem => hS a hmem ha

theorem update_cell {m : Memory (avl_node κ ω)} {a : Nat} {n : avl_node κ ω} (h : m.get a = some n)
    (f : avl_node κ ω → avl_node κ ω) :
    ∃ m', m.update (some a) f = .ok m' ∧ m'.get a = some (f n) ∧ Touches [a] m m' := by
  refine ⟨_, Memory.update_eq h f, m.get_set_self a _, ?_, rfl⟩
  intro b hb
  rw [List.mem_singleton] at hb
  exact m.get_set_ne _ hb

theorem set_parent_of_spec {m : Memory (avl_node κ ω)} {parent : Ptr} {t : BinaryTree (Item κ ω)}
    (p : Ptr) (ht : Owns m parent t) (hnd : (addrs t).Nodup) :
    ∃ m', set_parent_of m p (ptr t) = .ok m' ∧ Owns m' p t ∧ Touches (addrs t) m m' := by
  cases t with
  | nil => exact ⟨m, rfl, trivial, fun _ _ => rfl, rfl⟩
  | node i l r =>
    obtain ⟨hi, hl, hr⟩ := ht
    obtain ⟨-, -, hil, hir, -⟩ := (nodup_bin .left i l r).mp hnd
    obtain ⟨m', hm', hget, ht⟩ := update_cell hi fun n => { n with parent := p }
    refine ⟨m', hm', ⟨hget, ?_, ?_⟩, ht.mono (by simp)⟩
    · refine ht.owns hl fun a ha => ?_
      rintro hmem
      rw [List.mem_singleton.mp hmem] at ha
      exact hil ha
    · refine ht.owns hr fun a ha => ?_
      rintro hmem
      rw [List.mem_singleton.mp hmem] at ha
      exact hir ha

/-- The child pointer on side `d`. -/
def set_child (d : Side) (m : Memory (avl_node κ ω)) (p q : Ptr) : C (Memory (avl_node κ ω)) :=
  match d with
  | .left => set_left m p q
  | .right => set_right m p q

/-- The child pointer on side `d` of a node. -/
def child (d : Side) (n : avl_node κ ω) : Ptr :=
  match d with
  | .left => n.left
  | .right => n.right

@[simp] theorem child_cellOn (d : Side) (i : Item κ ω) (x y p : Ptr) :
    child d (cellOn d i x y p) = x := by
  cases d <;> rfl

@[simp] theorem child_flip_cellOn (d : Side) (i : Item κ ω) (x y p : Ptr) :
    child d.flip (cellOn d i x y p) = y := by
  cases d <;> rfl

theorem set_child_cell {m : Memory (avl_node κ ω)} {a : Nat} {d : Side} {i : Item κ ω}
    {x y p : Ptr} (x' : Ptr) (h : m.get a = some (cellOn d i x y p)) :
    ∃ m', set_child d m (some a) x' = .ok m' ∧
      m'.get a = some (cellOn d i x' y p) ∧ Touches [a] m m' := by
  cases d
  · exact update_cell h fun n => { n with left := x' }
  · exact update_cell h fun n => { n with right := x' }

theorem set_child_flip_cell {m : Memory (avl_node κ ω)} {a : Nat} {d : Side} {i : Item κ ω}
    {x y p : Ptr} (y' : Ptr) (h : m.get a = some (cellOn d i x y p)) :
    ∃ m', set_child d.flip m (some a) y' = .ok m' ∧
      m'.get a = some (cellOn d i x y' p) ∧ Touches [a] m m' := by
  cases d
  · exact update_cell h fun n => { n with right := y' }
  · exact update_cell h fun n => { n with left := y' }

theorem set_parent_cell {m : Memory (avl_node κ ω)} {a : Nat} {d : Side} {i : Item κ ω}
    {x y p : Ptr} (p' : Ptr) (h : m.get a = some (cellOn d i x y p)) :
    ∃ m', set_parent m (some a) p' = .ok m' ∧
      m'.get a = some (cellOn d i x y p') ∧ Touches [a] m m' := by
  obtain ⟨m', hm', hget, ht⟩ := update_cell h fun n => { n with parent := p' }
  exact ⟨m', hm', by cases d <;> exact hget, ht⟩

section Words

variable [RankBalance ω]

theorem get_rank_cell {m : Memory (avl_node κ ω)} {a : Nat} {d : Side} {i : Item κ ω} {x y p : Ptr}
    (h : m.get a = some (cellOn d i x y p)) : get_rank m (some a) = .ok i.rank := by
  rw [get_rank, Memory.load_eq h]
  cases d <;> rfl

theorem get_balance_cell {m : Memory (avl_node κ ω)} {a : Nat} {d : Side} {i : Item κ ω}
    {x y p : Ptr} (h : m.get a = some (cellOn d i x y p)) :
    get_balance m (some a) = .ok i.balance := by
  rw [get_balance, Memory.load_eq h]
  cases d <;> rfl

theorem set_rank_cell {m : Memory (avl_node κ ω)} {a : Nat} {d : Side} {i : Item κ ω}
    {x y p : Ptr} (r : Int) (h : m.get a = some (cellOn d i x y p)) :
    ∃ m', set_rank m (some a) r = .ok m' ∧
      m'.get a = some (cellOn d (i.setRank r) x y p) ∧ Touches [a] m m' := by
  obtain ⟨m', hm', hget, ht⟩ := update_cell h fun n =>
    { n with rank_and_balance := AVL_SET_RANK n.rank_and_balance r }
  exact ⟨m', hm', by cases d <;> exact hget, ht⟩

theorem set_balance_cell {m : Memory (avl_node κ ω)} {a : Nat} {d : Side} {i : Item κ ω}
    {x y p : Ptr} (b : Int) (h : m.get a = some (cellOn d i x y p)) :
    ∃ m', set_balance m (some a) b = .ok m' ∧
      m'.get a = some (cellOn d (i.setBalance b) x y p) ∧ Touches [a] m m' := by
  obtain ⟨m', hm', hget, ht⟩ := update_cell h fun n =>
    { n with rank_and_balance := AVL_SET_BALANCE n.rank_and_balance b }
  exact ⟨m', hm', by cases d <;> exact hget, ht⟩

end Words

/-! ## The link from above -/

section Link

variable [HasNull κ]

variable {m : Memory (avl_node κ ω)} {root : Nat} {c : List (Frame (Item κ ω))} {s : Nat}

/-- The side of the focus. The tree hangs on the right of the sentinel. -/
def hangs (c : List (Frame (Item κ ω))) : Side :=
  match c with
  | [] => .right
  | f :: _ => f.side

theorem load_upper (hc : Around m root c (some s)) (hs : s ∉ outer c) :
    ∃ a n, upper root c = some a ∧ m.get a = some n ∧
      (n.left = some s ↔ hangs c = .left) ∧ (n.right = some s ↔ hangs c = .right) := by
  cases c with
  | nil =>
    obtain ⟨w, hw⟩ := hc
    exact ⟨root, _, rfl, hw, by simp [hangs], by simp [hangs]⟩
  | cons f c =>
    have hsib : ptr f.sibling ≠ some s := by
      intro h
      exact hs ((mem_outer_cons f c s).mpr (Or.inr (Or.inl (ptr_mem h))))
    refine ⟨f.value.addr, _, rfl, hc.1, ?_, ?_⟩ <;>
      cases hd : f.side <;> simp [hangs, hd, cellOn, cell, hsib]

theorem set_child_spec {hole : Ptr} (p : Ptr) (hc : Around m root c hole)
    (hnd : (root :: outer c).Nodup) :
    ∃ m' a, set_child (hangs c) m (upper root c) p = .ok m' ∧ Around m' root c p ∧
      upper root c = some a ∧ Touches [a] m m' := by
  cases c with
  | nil =>
    obtain ⟨w, hw⟩ := hc
    obtain ⟨m', hm', hget, ht⟩ := update_cell hw fun n => { n with right := p }
    exact ⟨m', root, hm', ⟨w, hget⟩, rfl, ht⟩
  | cons f c =>
    obtain ⟨hf, hsib, hc⟩ := hc
    obtain ⟨-, hfs, hapart⟩ := distinct_cons hnd
    have hin : ∀ a, a ∈ addrs f.sibling ∨ a = root ∨ a ∈ outer c → a ∉ [f.value.addr] := by
      intro a ha hmem
      obtain rfl := List.mem_singleton.mp hmem
      rcases ha with ha | ha | ha
      · exact hfs ha
      · exact (hapart _ (Or.inl rfl)).1 ha
      · exact (hapart _ (Or.inl rfl)).2 ha
    obtain ⟨m', hm', hget, ht⟩ := set_child_cell p hf
    refine ⟨m', f.value.addr, hm', ⟨hget, ht.owns hsib fun a ha => hin a (Or.inl ha), ?_⟩, rfl, ht⟩
    exact around_congr hc fun a ha => ht.get a (hin a (Or.inr ha))

theorem relink_right_eq (p : Ptr) (hc : Around m root c (some s)) (hs : s ∉ outer c) :
    relink_right m (upper root c) (some s) p = set_child (hangs c) m (upper root c) p := by
  obtain ⟨a, n, ha, hn, -, hr⟩ := load_upper hc hs
  rw [ha, relink_right, Memory.load_eq hn]
  cases hd : hangs c
  · exact if_neg fun h => by simp [hr.mp h.symm] at hd
  · exact if_pos (hr.mpr hd).symm

theorem relink_left_eq (p : Ptr) (hc : Around m root c (some s)) (hs : s ∉ outer c) :
    relink_left m (upper root c) (some s) p = set_child (hangs c) m (upper root c) p := by
  obtain ⟨a, n, ha, hn, hl, -⟩ := load_upper hc hs
  rw [ha, relink_left, Memory.load_eq hn]
  cases hd : hangs c
  · exact if_pos (hl.mpr hd)
  · exact if_neg fun h => by simp [hl.mp h] at hd

end Link

/-! ## Rotations -/

section Rotations

variable {m : Memory (avl_node κ ω)}

/-- One turn of a rotation: `q` loses its child on side `d.flip` to `p` and gets `p` there. -/
def pivot (d : Side) (m : Memory (avl_node κ ω)) (p q : Ptr) : C (Memory (avl_node κ ω)) := do
  let inner := child d.flip (← m.load q)
  let m ← set_child d m p inner
  let m ← set_parent_of m p inner
  let m ← set_child d.flip m q p
  set_parent m p q

theorem pivot_spec {d : Side} {p q : Item κ ω} {b : BinaryTree (Item κ ω)} {x y pp z pq : Ptr}
    (hp : m.get p.addr = some (cellOn d p x y pp))
    (hq : m.get q.addr = some (cellOn d q z (ptr b) pq)) (hb : Owns m (some q.addr) b)
    (hpq : p.addr ≠ q.addr) (hpb : p.addr ∉ addrs b) (hqb : q.addr ∉ addrs b)
    (hnd : (addrs b).Nodup) :
    ∃ m', pivot d m (some p.addr) (some q.addr) = .ok m' ∧
      m'.get p.addr = some (cellOn d p (ptr b) y (some q.addr)) ∧
      m'.get q.addr = some (cellOn d q z (some p.addr) pq) ∧
      Owns m' (some p.addr) b ∧ Touches (p.addr :: q.addr :: addrs b) m m' := by
  obtain ⟨m1, hm1, hp1, t1⟩ := set_child_cell (ptr b) hp
  have hb1 : Owns m1 (some q.addr) b := t1.owns hb fun x hx hmem => by
    rw [List.mem_singleton.mp hmem] at hx
    exact hpb hx
  obtain ⟨m2, hm2, hb2, t2⟩ := set_parent_of_spec (some p.addr) hb1 hnd
  have hq2 : m2.get q.addr = some (cellOn d q z (ptr b) pq) := by
    rw [t2.get _ hqb, t1.get _ (by simpa using Ne.symm hpq), hq]
  obtain ⟨m3, hm3, hq3, t3⟩ := set_child_flip_cell (some p.addr) hq2
  have hp3 : m3.get p.addr = some (cellOn d p (ptr b) y pp) := by
    rw [t3.get _ (by simpa using hpq), t2.get _ hpb, hp1]
  obtain ⟨m4, hm4, hp4, t4⟩ := set_parent_cell (some q.addr) hp3
  refine ⟨m4, ?_, hp4, ?_, ?_, ?_⟩
  · simp only [pivot, Memory.load_eq hq, ok_bind, child_flip_cellOn, hm1, hm2, hm3, hm4]
  · rw [t4.get _ (by simpa using Ne.symm hpq), hq3]
  · refine (t3.trans t4).owns hb2 fun x hx => ?_
    simp only [List.cons_append, List.nil_append, List.mem_cons, List.not_mem_nil, or_false]
    rintro (rfl | rfl)
    · exact hqb hx
    · exact hpb hx
  · refine ((t1.trans t2).trans (t3.trans t4)).mono fun x hx => ?_
    simp only [List.cons_append, List.nil_append, List.mem_cons, List.mem_append,
      List.not_mem_nil, or_false] at hx ⊢
    grind

variable [RankBalance ω]

/-- The ranks after a single rotation. -/
def single_ranks (d : Side) (m : Memory (avl_node κ ω)) (p q : Ptr) : C (Memory (avl_node κ ω)) :=
  match d with
  | .left => do set_rank m p ((← get_rank m p) - (← get_rank m q))
  | .right => do set_rank m q ((← get_rank m q) + (← get_rank m p))

/-- Both single rotations: `q` is the child of `p` on side `d`. -/
def single_rotate (d : Side) (m : Memory (avl_node κ ω)) (p q : Ptr) :
    C (Memory (avl_node κ ω)) := do
  let m ← pivot d m p q
  single_ranks d m p q

theorem single_rotate_right_eq (p q : Ptr) :
    single_rotate_right m p q = single_rotate .left m p q := by
  simp only [single_rotate, pivot, bind_assoc]
  rfl

theorem single_rotate_left_eq (p q : Ptr) :
    single_rotate_left m p q = single_rotate .right m p q := by
  simp only [single_rotate, pivot, bind_assoc]
  rfl

/-- The ranks after a double rotation. -/
def double_ranks (d : Side) (m : Memory (avl_node κ ω)) (p q r : Ptr) : C (Memory (avl_node κ ω)) :=
  match d with
  | .left => do
    let m ← set_rank m r ((← get_rank m r) + (← get_rank m q))
    set_rank m p ((← get_rank m p) - (← get_rank m r))
  | .right => do
    let m ← set_rank m q ((← get_rank m q) - (← get_rank m r))
    set_rank m r ((← get_rank m r) + (← get_rank m p))

/-- Both double rotations: `q` is the child of `p` on side `d`, and `r` that of `q` on the other. -/
def double_rotate (d : Side) (m : Memory (avl_node κ ω)) (p q r : Ptr) :
    C (Memory (avl_node κ ω)) := do
  let m ← pivot d.flip m q r
  let m ← pivot d m p r
  double_ranks d m p q r

theorem double_rotate_right_eq (p q r : Ptr) :
    double_rotate_right m p q r = double_rotate .left m p q r := by
  simp only [double_rotate, pivot, bind_assoc]
  rfl

theorem double_rotate_left_eq (p q r : Ptr) :
    double_rotate_left m p q r = double_rotate .right m p q r := by
  simp only [double_rotate, pivot, bind_assoc]
  rfl

theorem single_ranks_spec {d : Side} {p q : Item κ ω} {xp yp pp xq yq pq : Ptr}
    (hpq : p.addr ≠ q.addr) (hp : m.get p.addr = some (cellOn d p xp yp pp))
    (hq : m.get q.addr = some (cellOn d q xq yq pq)) :
    ∃ m', single_ranks d m (some p.addr) (some q.addr) = .ok m' ∧
      m'.get p.addr = some (cellOn d (singleOuter d p q) xp yp pp) ∧
      m'.get q.addr = some (cellOn d (singleInner d p q) xq yq pq) ∧
      Touches [p.addr, q.addr] m m' := by
  cases d
  · obtain ⟨m', hm', hp', t⟩ := set_rank_cell (p.rank - q.rank) hp
    refine ⟨m', ?_, hp', ?_, t.mono (by simp)⟩
    · simp only [single_ranks, get_rank_cell hp, get_rank_cell hq, ok_bind, hm']
    · rw [t.get _ (by simpa using Ne.symm hpq), hq]
      rfl
  · obtain ⟨m', hm', hq', t⟩ := set_rank_cell (q.rank + p.rank) hq
    refine ⟨m', ?_, ?_, hq', t.mono (by simp)⟩
    · simp only [single_ranks, get_rank_cell hp, get_rank_cell hq, ok_bind, hm']
    · rw [t.get _ (by simpa using hpq), hp]
      rfl

theorem double_ranks_spec {d : Side} {p q r : Item κ ω} {xp yp pp xq yq pq xr yr pr : Ptr}
    (hpq : p.addr ≠ q.addr) (hpr : p.addr ≠ r.addr) (hqr : q.addr ≠ r.addr)
    (hp : m.get p.addr = some (cellOn d p xp yp pp))
    (hq : m.get q.addr = some (cellOn d q xq yq pq))
    (hr : m.get r.addr = some (cellOn d r xr yr pr)) :
    ∃ m', double_ranks d m (some p.addr) (some q.addr) (some r.addr) = .ok m' ∧
      m'.get p.addr = some (cellOn d (doubleOuter d p q r) xp yp pp) ∧
      m'.get q.addr = some (cellOn d (doubleInner d q r) xq yq pq) ∧
      m'.get r.addr = some (cellOn d (doubleTop d p q r) xr yr pr) ∧
      Touches [p.addr, q.addr, r.addr] m m' := by
  cases d
  · obtain ⟨m1, hm1, hr1, t1⟩ := set_rank_cell (r.rank + q.rank) hr
    have hp1 : m1.get p.addr = some (cellOn .left p xp yp pp) := by
      rw [t1.get _ (by simpa using hpr), hp]
    obtain ⟨m2, hm2, hp2, t2⟩ := set_rank_cell (p.rank - (r.setRank (r.rank + q.rank)).rank) hp1
    have hr1' := get_rank_cell (i := r.setRank (r.rank + q.rank)) hr1
    refine ⟨m2, ?_, hp2, ?_, ?_, (t1.trans t2).mono (by simp)⟩
    · simp only [double_ranks, get_rank_cell hr, get_rank_cell hq, ok_bind, hm1, get_rank_cell hp1]
      rw [show get_rank m1 (some r.addr) = _ from hr1', ok_bind, hm2]
    · rw [t2.get _ (by simpa using Ne.symm hpq), t1.get _ (by simpa using hqr), hq]
      rfl
    · rw [t2.get _ (by simpa using Ne.symm hpr), hr1]
      rfl
  · obtain ⟨m1, hm1, hq1, t1⟩ := set_rank_cell (q.rank - r.rank) hq
    have hr1 : m1.get r.addr = some (cellOn .right r xr yr pr) := by
      rw [t1.get _ (by simpa using Ne.symm hqr), hr]
    have hp1 : m1.get p.addr = some (cellOn .right p xp yp pp) := by
      rw [t1.get _ (by simpa using hpq), hp]
    obtain ⟨m2, hm2, hr2, t2⟩ := set_rank_cell (r.rank + p.rank) hr1
    refine ⟨m2, ?_, ?_, ?_, hr2, (t1.trans t2).mono (by simp)⟩
    · simp only [double_ranks, get_rank_cell hr, get_rank_cell hq, ok_bind, hm1, get_rank_cell hp1,
        get_rank_cell hr1, hm2]
    · rw [t2.get _ (by simpa using hpr), hp1]
      rfl
    · rw [t2.get _ (by simpa using hqr), hq1]
      rfl

theorem set_balances_cell {a b : Nat} {d : Side} {i j : Item κ ω} {xi yi pi xj yj pj : Ptr}
    (bi bj : Int) (hab : a ≠ b) (hi : m.get a = some (cellOn d i xi yi pi))
    (hj : m.get b = some (cellOn d j xj yj pj)) :
    ∃ m1 m2, set_balance m (some a) bi = .ok m1 ∧ set_balance m1 (some b) bj = .ok m2 ∧
      m2.get a = some (cellOn d (i.setBalance bi) xi yi pi) ∧
      m2.get b = some (cellOn d (j.setBalance bj) xj yj pj) ∧ Touches [a, b] m m2 := by
  obtain ⟨m1, hm1, hi1, t1⟩ := set_balance_cell bi hi
  have hj1 : m1.get b = some (cellOn d j xj yj pj) := by
    rw [t1.get _ (by simpa using Ne.symm hab), hj]
  obtain ⟨m2, hm2, hj2, t2⟩ := set_balance_cell bj hj1
  exact ⟨m1, m2, hm1, hm2, by rw [t2.get _ (by simpa using hab), hi1], hj2, t1.trans t2⟩

theorem single_rotate_spec {d : Side} {p q : Item κ ω} {a b e : BinaryTree (Item κ ω)} {pp pq : Ptr}
    (hp : m.get p.addr = some (cellOn d p (some q.addr) (ptr e) pp))
    (hq : Owns m pq (bin d q a b)) (he : Owns m (some p.addr) e)
    (hnd : (addrs (bin d p (bin d q a b) e)).Nodup) (bp bq : Int) :
    ∃ m', single_rotate d m (some p.addr) (some q.addr) = .ok m' ∧
      (∃ m1 m2, set_balance m' (some p.addr) bp = .ok m1 ∧
      set_balance m1 (some q.addr) bq = .ok m2 ∧
        Owns m2 pq (single d p q bp bq a b e) ∧ Touches (addrs (bin d p (bin d q a b) e)) m m2) ∧
      (∃ m1 m2, set_balance m' (some q.addr) bq = .ok m1 ∧
      set_balance m1 (some p.addr) bp = .ok m2 ∧
        Owns m2 pq (single d p q bp bq a b e) ∧
        Touches (addrs (bin d p (bin d q a b) e)) m m2) := by
  simp only [nodup_bin, mem_addrs_bin] at hnd
  obtain ⟨⟨-, hndb, hqa, hqb, hab⟩, -, hpq, hpe, hqe⟩ := hnd
  rw [not_or, not_or] at hpq
  obtain ⟨hpq, hpa, hpb⟩ := hpq
  rw [owns_bin] at hq
  obtain ⟨hq, ha, hb⟩ := hq
  obtain ⟨m1, hm1, hp1, hq1, hb1, t1⟩ := pivot_spec hp hq hb hpq hpb hqb hndb
  obtain ⟨m2, hm2, hp2, hq2, t2⟩ := single_ranks_spec hpq hp1 hq1
  -- what is left of the proof does not depend on the order of the two writes
  have done : ∀ m3, m3.get p.addr =
      some (cellOn d ((singleOuter d p q).setBalance bp) (ptr b) (ptr e) (some q.addr)) →
      m3.get q.addr = some (cellOn d ((singleInner d p q).setBalance bq) (ptr a) (some p.addr) pq) →
      Touches [p.addr, q.addr] m2 m3 →
      Owns m3 pq (single d p q bp bq a b e) ∧ Touches (addrs (bin d p (bin d q a b) e)) m m3 := by
    intro m3 hp3 hq3 t3
    have t : Touches [p.addr, q.addr] m1 m3 := (t2.trans t3).mono (by simp)
    have ha1 : Owns m1 (some q.addr) a := t1.owns ha fun x hx => by
      simp only [List.mem_cons, not_or]
      exact ⟨fun h => hpa (h ▸ hx), fun h => hqa (h ▸ hx), hab x hx⟩
    have he1 : Owns m1 (some p.addr) e := t1.owns he fun x hx => by
      simp only [List.mem_cons, not_or]
      exact ⟨fun h => hpe (h ▸ hx), fun h => hqe _ (Or.inl rfl) (h ▸ hx),
        fun h => hqe x (Or.inr (Or.inr h)) hx⟩
    refine ⟨?_, (t1.trans t).mono fun x hx => ?_⟩
    · simp only [single, owns_bin, ptr_bin, Item.setBalance_addr, singleOuter_addr,
        singleInner_addr]
      have hqe' : q.addr ∉ addrs e := hqe _ (Or.inl rfl)
      exact ⟨hq3, t.owns_apart ha1 (by simp [hpa, hqa]), hp3, t.owns_apart hb1 (by simp [hpb, hqb]),
        t.owns_apart he1 (by simp [hpe, hqe'])⟩
    · simp only [mem_addrs_bin, List.cons_append, List.mem_cons, List.mem_append,
        List.not_mem_nil, or_false] at hx ⊢
      grind
  refine ⟨m2, ?_, ?_, ?_⟩
  · simp only [single_rotate, hm1, ok_bind, hm2]
  · obtain ⟨m3, m4, hm3, hm4, hp4, hq4, t4⟩ := set_balances_cell bp bq hpq hp2 hq2
    exact ⟨m3, m4, hm3, hm4, done m4 hp4 hq4 t4⟩
  · obtain ⟨m3, m4, hm3, hm4, hq4, hp4, t4⟩ := set_balances_cell bq bp (Ne.symm hpq) hq2 hp2
    exact ⟨m3, m4, hm3, hm4, done m4 hp4 hq4 (t4.mono (by simp))⟩

omit [RankBalance ω] in
theorem double_pivots_spec {d : Side} {p q r : Item κ ω} {a b e c : BinaryTree (Item κ ω)}
    {pp pq pr : Ptr} (hp : m.get p.addr = some (cellOn d p (some q.addr) (ptr c) pp))
    (hq : m.get q.addr = some (cellOn d q (ptr a) (some r.addr) pq))
    (hr : Owns m pr (bin d r b e)) (ha : Owns m (some q.addr) a) (hc : Owns m (some p.addr) c)
    (hnd : (addrs (bin d p (bin d q a (bin d r b e)) c)).Nodup) :
    ∃ m1 m2, pivot d.flip m (some q.addr) (some r.addr) = .ok m1 ∧
      pivot d m1 (some p.addr) (some r.addr) = .ok m2 ∧
      m2.get p.addr = some (cellOn d p (ptr e) (ptr c) (some r.addr)) ∧
      m2.get q.addr = some (cellOn d q (ptr a) (ptr b) (some r.addr)) ∧
      m2.get r.addr = some (cellOn d r (some q.addr) (some p.addr) pr) ∧
      (Owns m2 (some q.addr) a ∧ Owns m2 (some q.addr) b ∧ Owns m2 (some p.addr) e ∧
      Owns m2 (some p.addr) c) ∧
      Touches (addrs (bin d p (bin d q a (bin d r b e)) c)) m m2 := by
  simp only [nodup_bin, mem_addrs_bin, not_or] at hnd
  obtain ⟨⟨-, ⟨hndb, hnde, hrb, hre, hbe⟩, hqa, ⟨hqr, hqb, hqe⟩, ha'⟩, -,
      ⟨hpq, hpa, hpr, hpb, hpe⟩, hpc, hc'⟩ :=
    hnd
  rw [owns_bin] at hr
  obtain ⟨hr, hb, he⟩ := hr
  -- first the turn around `q`, seen from the other side
  have hq' : m.get q.addr = some (cellOn d.flip q (some r.addr) (ptr a) pq) := by
    rw [cellOn_flip, hq]
  have hr' : m.get r.addr = some (cellOn d.flip r (ptr e) (ptr b) pr) := by rw [cellOn_flip, hr]
  obtain ⟨m1, hm1, hq1, hr1, hb1, t1⟩ := pivot_spec hq' hr' hb hqr hqb hrb hndb
  rw [cellOn_flip] at hq1 hr1
  have hp1 : m1.get p.addr = some (cellOn d p (some q.addr) (ptr c) pp) := by
    rw [t1.get _ (by simp [hpq, hpr, hpb]), hp]
  have ha1 : Owns m1 (some q.addr) a := t1.owns ha fun x hx => by
    simp only [List.mem_cons, not_or]
    exact ⟨fun h => hqa (h ▸ hx), (ha' x hx).1, (ha' x hx).2.1⟩
  have he1 : Owns m1 (some r.addr) e := t1.owns_apart he (by simpa [hqe, hre] using hbe)
  have hc1 : Owns m1 (some p.addr) c := t1.owns hc fun x hx => by
    simp only [List.mem_cons, not_or]
    exact ⟨fun h => hc' x (Or.inl h) hx, fun h => hc' x (by simp [h]) hx, fun h =>
      hc' x (by simp [h]) hx⟩
  -- then the turn around `p`
  obtain ⟨m2, hm2, hp2, hr2, he2, t2⟩ := pivot_spec hp1 hr1 he1 hpr hpe hre hnde
  have hq2 : m2.get q.addr = some (cellOn d q (ptr a) (ptr b) (some r.addr)) := by
    rw [t2.get _ (by simp [Ne.symm hpq, hqr, hqe]), hq1]
  have ha2 : Owns m2 (some q.addr) a := t2.owns ha1 fun x hx => by
    simp only [List.mem_cons, not_or]
    exact ⟨fun h => hpa (h ▸ hx), (ha' x hx).1, (ha' x hx).2.2⟩
  have hb2 : Owns m2 (some q.addr) b := t2.owns hb1 fun x hx => by
    simp only [List.mem_cons, not_or]
    exact ⟨fun h => hpb (h ▸ hx), fun h => hrb (h ▸ hx), hbe x hx⟩
  have hc2 : Owns m2 (some p.addr) c := t2.owns hc1 fun x hx => by
    simp only [List.mem_cons, not_or]
    exact ⟨fun h => hpc (h ▸ hx), fun h => hc' x (by simp [h]) hx, fun h => hc' x (by simp [h]) hx⟩
  refine ⟨m1, m2, hm1, hm2, hp2, hq2, hr2, ⟨ha2, hb2, he2, hc2⟩, (t1.trans t2).mono fun x hx => ?_⟩
  simp only [mem_addrs_bin, List.cons_append, List.mem_cons, List.mem_append] at hx ⊢
  grind

/-- The last write does not depend on the order of the two before it. -/
theorem double_writes [LawfulRankBalance ω] {d : Side} {p q r : Item κ ω}
    {a b e c : BinaryTree (Item κ ω)} {pr : Ptr} {m2 m3 m5 : Memory (avl_node κ ω)}
    (hnd : (addrs (bin d p (bin d q a (bin d r b e)) c)).Nodup)
    (howns : Owns m2 (some q.addr) a ∧ Owns m2 (some q.addr) b ∧ Owns m2 (some p.addr) e ∧
      Owns m2 (some p.addr) c)
    (t2 : Touches (addrs (bin d p (bin d q a (bin d r b e)) c)) m m2)
    (t3 : Touches [p.addr, q.addr, r.addr] m2 m3)
    (hr3 : m3.get r.addr = some (cellOn d (doubleTop d p q r) (some q.addr) (some p.addr) pr))
    (hp5 : m5.get p.addr = some (cellOn d
      ((doubleOuter d p q r).setBalance (outerBalance d r.balance)) (ptr e) (ptr c) (some r.addr)))
    (hq5 : m5.get q.addr = some (cellOn d
      ((doubleInner d q r).setBalance (innerBalance d r.balance)) (ptr a) (ptr b) (some r.addr)))
    (t5 : Touches [p.addr, q.addr] m3 m5) :
    ∃ m6, set_balance m5 (some r.addr) 0 = .ok m6 ∧ Owns m6 pr (double d p q r a b e c) ∧
      Touches (addrs (bin d p (bin d q a (bin d r b e)) c)) m m6 := by
  obtain ⟨ha2, hb2, he2, hc2⟩ := howns
  simp only [nodup_bin, mem_addrs_bin, not_or] at hnd
  obtain ⟨⟨-, ⟨-, -, hrb, hre, -⟩, hqa, ⟨hqr, hqb, hqe⟩, ha'⟩, -, ⟨hpq, hpa, hpr, hpb, hpe⟩,
      hpc, hc'⟩ := hnd
  have hr5 :
      m5.get r.addr = some (cellOn d (doubleTop d p q r) (some q.addr) (some p.addr) pr) := by
    rw [t5.get _ (by simp [Ne.symm hpr, Ne.symm hqr]), hr3]
  obtain ⟨m6, hm6, hr6, t6⟩ := set_balance_cell 0 hr5
  have t : Touches [p.addr, q.addr, r.addr] m2 m6 :=
    (t3.trans (t5.trans t6)).mono (by simp)
  have hra : r.addr ∉ addrs a := fun h => (ha' _ h).1 rfl
  have hqc : q.addr ∉ addrs c := hc' _ (Or.inl rfl)
  have hrc : r.addr ∉ addrs c := hc' _ (by simp)
  refine ⟨m6, hm6, ?_, (t2.trans t).mono fun x hx => ?_⟩
  · simp only [double, owns_bin, ptr_bin, Item.setBalance_addr, doubleTop_addr, doubleInner_addr,
      doubleOuter_addr]
    refine ⟨hr6, ⟨?_, ?_, ?_⟩, ?_, ?_, ?_⟩
    · rw [t6.get _ (by simpa using hqr), hq5]
    · exact t.owns_apart ha2 (by simp [hpa, hqa, hra])
    · exact t.owns_apart hb2 (by simp [hpb, hqb, hrb])
    · rw [t6.get _ (by simpa using hpr), hp5]
    · exact t.owns_apart he2 (by simp [hpe, hqe, hre])
    · exact t.owns_apart hc2 (by simp [hpc, hqc, hrc])
  · simp only [mem_addrs_bin, List.mem_cons, List.mem_append, List.not_mem_nil, or_false] at hx ⊢
    grind

/-- A double rotation and the balance factors after it, with those of `p` and `q` in
either order. -/
theorem double_rotate_spec [LawfulRankBalance ω] {d : Side} {p q r : Item κ ω}
    {a b e c : BinaryTree (Item κ ω)} {pp pq pr : Ptr}
    (hp : m.get p.addr = some (cellOn d p (some q.addr) (ptr c) pp))
    (hq : m.get q.addr = some (cellOn d q (ptr a) (some r.addr) pq))
    (hr : Owns m pr (bin d r b e)) (ha : Owns m (some q.addr) a) (hc : Owns m (some p.addr) c)
    (hnd : (addrs (bin d p (bin d q a (bin d r b e)) c)).Nodup) :
    ∃ m', double_rotate d m (some p.addr) (some q.addr) (some r.addr) = .ok m' ∧
      get_balance m' (some r.addr) = .ok r.balance ∧
      (∃ m1 m2 m3, set_balance m' (some p.addr) (outerBalance d r.balance) = .ok m1 ∧
        set_balance m1 (some q.addr) (innerBalance d r.balance) = .ok m2 ∧
        set_balance m2 (some r.addr) 0 = .ok m3 ∧ Owns m3 pr (double d p q r a b e c) ∧
        Touches (addrs (bin d p (bin d q a (bin d r b e)) c)) m m3) ∧
      (∃ m1 m2 m3, set_balance m' (some q.addr) (innerBalance d r.balance) = .ok m1 ∧
        set_balance m1 (some p.addr) (outerBalance d r.balance) = .ok m2 ∧
        set_balance m2 (some r.addr) 0 = .ok m3 ∧ Owns m3 pr (double d p q r a b e c) ∧
        Touches (addrs (bin d p (bin d q a (bin d r b e)) c)) m m3) := by
  obtain ⟨m1, m2, hm1, hm2, hp2, hq2, hr2, howns, t2⟩ := double_pivots_spec hp hq hr ha hc hnd
  have hdistinct := hnd
  simp only [nodup_bin, mem_addrs_bin, not_or] at hdistinct
  obtain ⟨⟨-, -, -, ⟨hqr, -⟩, -⟩, -, ⟨hpq, -, hpr, -⟩, -⟩ := hdistinct
  obtain ⟨m3, hm3, hp3, hq3, hr3, t3⟩ := double_ranks_spec hpq hpr hqr hp2 hq2 hr2
  have hbal : get_balance m3 (some r.addr) = .ok r.balance := by
    rw [get_balance_cell hr3]
    cases d <;> simp [doubleTop]
  refine ⟨m3, ?_, hbal, ?_, ?_⟩
  · simp only [double_rotate, hm1, ok_bind, hm2, hm3]
  · obtain ⟨m4, m5, hm4, hm5, hp5, hq5, t5⟩ :=
      set_balances_cell (outerBalance d r.balance) (innerBalance d r.balance) hpq hp3 hq3
    obtain ⟨m6, hm6, h6, t6⟩ := double_writes hnd howns t2 t3 hr3 hp5 hq5 t5
    exact ⟨m4, m5, m6, hm4, hm5, hm6, h6, t6⟩
  · obtain ⟨m4, m5, hm4, hm5, hq5, hp5, t5⟩ :=
      set_balances_cell (innerBalance d r.balance) (outerBalance d r.balance) (Ne.symm hpq) hq3 hp3
    obtain ⟨m6, hm6, h6, t6⟩ :=
      double_writes hnd howns t2 t3 hr3 hp5 hq5 (t5.mono (by simp))
    exact ⟨m4, m5, m6, hm4, hm5, hm6, h6, t6⟩

end Rotations

end Avl
