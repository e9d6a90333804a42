import IcecastCommon.Avl.Failure
import IcecastCommon.Avl.Watched

/-!
# The code on two kinds of words

The code branches on keys, pointers and balance factors, never on a rank. So it takes the same way
with any words as with watched ones, and stores the same ranks until one of them is lost.
-/

namespace Avl

open Lib

variable {κ ω : Type} [RankBalance ω]

/-- The same node, seen with words of the other kind. -/
inductive Copies : avl_node κ ω → avl_node κ Watched → Prop
  | mk (key : κ) (left right parent : Ptr) (w : ω) (k : Watched) (h : Shows w k) :
    Copies ⟨key, left, right, parent, w⟩ ⟨key, left, right, parent, k⟩

abbrev Twins (m : Memory (avl_node κ ω)) (m' : Memory (avl_node κ Watched)) : Prop :=
  Alike Copies m m'

/-- Twin memories, and the same result besides. -/
def TwinsWith {α : Type} (x : Memory (avl_node κ ω) × α) (y : Memory (avl_node κ Watched) × α) :
    Prop :=
  Twins x.1 y.1 ∧ x.2 = y.2

theorem Copies.shows {x : avl_node κ ω} {y : avl_node κ Watched} (h : Copies x y) :
    Shows x.rank_and_balance y.rank_and_balance := by
  obtain ⟨_, _, _, _, _, _, h⟩ := h
  exact h

theorem Copies.key {x : avl_node κ ω} {y : avl_node κ Watched} (h : Copies x y) :
    x.key = y.key := by
  obtain ⟨⟩ := h
  rfl

theorem Copies.parent {x : avl_node κ ω} {y : avl_node κ Watched} (h : Copies x y) :
    x.parent = y.parent := by
  obtain ⟨⟩ := h
  rfl

theorem Copies.left {x : avl_node κ ω} {y : avl_node κ Watched} (h : Copies x y) :
    x.left = y.left := by
  obtain ⟨⟩ := h
  rfl

theorem Copies.right {x : avl_node κ ω} {y : avl_node κ Watched} (h : Copies x y) :
    x.right = y.right := by
  obtain ⟨⟩ := h
  rfl

theorem Copies.child {x : avl_node κ ω} {y : avl_node κ Watched} (h : Copies x y) (d : Side) :
    child d x = child d y := by
  cases d
  · exact h.left
  · exact h.right

/-! ## One field -/

section Access

variable {m : Memory (avl_node κ ω)} {m' : Memory (avl_node κ Watched)}

theorem set_child_follows (h : Twins m m') (d : Side) (p q : Ptr) :
    Follows Twins (set_child d m p q) (set_child d m' p q) := by
  cases d
  · refine h.update p ?_
    rintro - - - - - - ⟨key, l, r, u, w, k, hw⟩
    exact ⟨key, q, r, u, w, k, hw⟩
  · refine h.update p ?_
    rintro - - - - - - ⟨key, l, r, u, w, k, hw⟩
    exact ⟨key, l, q, u, w, k, hw⟩

theorem set_parent_follows (h : Twins m m') (p q : Ptr) :
    Follows Twins (set_parent m p q) (set_parent m' p q) := by
  refine h.update p ?_
  rintro - - - - - - ⟨key, l, r, u, w, k, hw⟩
  exact ⟨key, l, r, q, w, k, hw⟩

theorem set_parent_of_follows (h : Twins m m') (p q : Ptr) :
    Follows Twins (set_parent_of m p q) (set_parent_of m' p q) := by
  cases q with
  | none => exact follows_ok h
  | some a => exact set_parent_follows h (some a) p

theorem set_key_follows (h : Twins m m') (p : Ptr) (key : κ) :
    Follows Twins (set_key m p key) (set_key m' p key) := by
  refine h.update p ?_
  rintro - - - - - - ⟨_, l, r, u, w, k, hw⟩
  exact ⟨key, l, r, u, w, k, hw⟩

theorem get_balance_follows (h : Twins m m') (p : Ptr) :
    Follows Eq (get_balance m p) (get_balance m' p) :=
  h.load p fun _ _ _ _ _ _ hxy => follows_ok hxy.shows.1

theorem lost_or_equal {w : ω} {k : Watched} (h : Shows w k) :
    AVL_GET_RANK k = -2 ^ 30 ∨ AVL_GET_RANK w = AVL_GET_RANK k := by
  cases hk : k.rank with
  | none => exact Or.inl (Watched.get_lost hk)
  | some s => exact Or.inr (h.rank hk)

variable [LawfulRankBalance ω]

theorem set_balance_follows (h : Twins m m') (p : Ptr) {b : Int} (hb : -1 ≤ b) (hb' : b ≤ 1) :
    Follows Twins (set_balance m p b) (set_balance m' p b) := by
  refine h.update p ?_
  rintro - - - - - - ⟨key, l, r, u, w, k, hw⟩
  exact ⟨key, l, r, u, _, _, hw.set_balance hb hb'⟩

theorem set_rank_follows (h : Twins m m') {a : Nat} {y : avl_node κ Watched}
    (hy : m'.get a = some y) {r r' : Int}
    (hr : ∀ s, y.rank_and_balance.rank = some s → 0 ≤ r' → r' < 2 ^ 30 → r = r') :
    Follows Twins (set_rank m (some a) r) (set_rank m' (some a) r') := by
  refine h.update (some a) ?_
  rintro b x z ⟨⟩ - hz ⟨key, l, u, v, w, k, hw⟩
  obtain rfl := Option.some.inj (hy.symm.trans hz)
  exact ⟨key, l, u, v, _, _, hw.set_rank hr⟩

theorem shift_follows (h : Twins m m') {a : Nat} {x : avl_node κ ω} {y : avl_node κ Watched}
    (hxy : Copies x y) (hy : m'.get a = some y) (g : Int → Int) :
    Follows Twins (set_rank m (some a) (g (AVL_GET_RANK x.rank_and_balance)))
      (set_rank m' (some a) (g (AVL_GET_RANK y.rank_and_balance))) := by
  refine set_rank_follows h hy fun s hs _ _ => ?_
  rw [hxy.shows.rank hs]

theorem shift_rank_follows (h : Twins m m') (p : Ptr) (g : Int → Int) :
    Follows Twins (get_rank m p >>= fun r => set_rank m p (g r)) (get_rank m' p >>= fun r =>
      set_rank m' p (g r)) := by
  simp only [get_rank, bind_assoc, pure_bind]
  refine h.load p ?_
  rintro a x y rfl - hy hxy
  exact shift_follows h hxy hy g

theorem combine_follows (h : Twins m m') (p q : Ptr) (g : Int → Int → Int)
    (hg : ∀ x y, 0 ≤ x → x < 2 ^ 30 → y = -2 ^ 30 → ¬ (0 ≤ g x y ∧ g x y < 2 ^ 30)) :
    Follows Twins (get_rank m p >>= fun x => get_rank m q >>= fun y => set_rank m p (g x y))
      (get_rank m' p >>= fun x => get_rank m' q >>= fun y => set_rank m' p (g x y)) := by
  simp only [get_rank, bind_assoc, pure_bind]
  refine h.load p ?_
  rintro a x y rfl - hy hxy
  refine h.load q fun b x1 y1 _ _ _ hxy1 => ?_
  refine set_rank_follows h hy fun s hs h0 h1 => ?_
  have hs2 := s.2
  rw [hxy.shows.rank hs]
  rw [Watched.get_rank hs] at h0 h1 ⊢
  rcases lost_or_equal hxy1.shows with hlost | heq
  · exact absurd ⟨h0, h1⟩ (hg _ _ hs2.1 hs2.2 hlost)
  · rw [heq]

theorem sub_follows (h : Twins m m') (p q : Ptr) :
    Follows Twins (do set_rank m p ((← get_rank m p) - (← get_rank m q)))
      (do set_rank m' p ((← get_rank m' p) - (← get_rank m' q))) :=
  combine_follows h p q (· - ·) fun x y _ _ hy => by omega

theorem add_follows (h : Twins m m') (p q : Ptr) :
    Follows Twins (do set_rank m p ((← get_rank m p) + (← get_rank m q)))
      (do set_rank m' p ((← get_rank m' p) + (← get_rank m' q))) :=
  combine_follows h p q (· + ·) fun x y _ _ hy => by omega

theorem avl_node_new_follows (h : Twins m m') (key : κ) (p : Ptr) :
    ∃ a n n', avl_node_new m key p = (a, n) ∧ avl_node_new m' key p = (a, n') ∧ Twins n n' := by
  obtain ⟨hsame, h1⟩ := h.malloc (Copies.mk key none none p _ _ (shows_new (ω := ω)))
  exact ⟨_, _, _, rfl, Prod.ext hsame.symm rfl, h1⟩

end Access

/-! ## Insertion -/

section Insertion

variable {m : Memory (avl_node κ ω)} {m' : Memory (avl_node κ Watched)}

theorem pivot_follows (h : Twins m m') (d : Side) (p q : Ptr) :
    Follows Twins (pivot d m p q) (pivot d m' p q) := by
  refine h.load q fun _ x y _ _ _ hxy => ?_
  dsimp only
  rw [hxy.child d.flip]
  refine (set_child_follows h d p _).bind fun _ _ h1 => ?_
  refine (set_parent_of_follows h1 p _).bind fun _ _ h2 => ?_
  refine (set_child_follows h2 d.flip q p).bind fun _ _ h3 => ?_
  exact set_parent_follows h3 p q

variable [LawfulRankBalance ω]

theorem single_rotate_follows (h : Twins m m') (d : Side) (p q : Ptr) :
    Follows Twins (single_rotate d m p q) (single_rotate d m' p q) := by
  refine (pivot_follows h d p q).bind fun _ _ h1 => ?_
  cases d
  · exact sub_follows h1 p q
  · exact add_follows h1 q p

theorem double_rotate_follows (h : Twins m m') (d : Side) (p q r : Ptr) :
    Follows Twins (double_rotate d m p q r) (double_rotate d m' p q r) := by
  refine (pivot_follows h d.flip q r).bind fun _ _ h1 => ?_
  refine (pivot_follows h1 d p r).bind fun _ _ h2 => ?_
  cases d
  · have h3 := (add_follows h2 r q).bind fun _ _ h3 => sub_follows h3 p r
    simpa only [double_ranks, bind_assoc] using h3
  · have h3 := (sub_follows h2 q r).bind fun _ _ h3 => add_follows h3 r p
    simpa only [double_ranks, bind_assoc] using h3

theorem single_rotate_right_follows (h : Twins m m') (p q : Ptr) :
    Follows Twins (single_rotate_right m p q) (single_rotate_right m' p q) := by
  rw [single_rotate_right_eq, single_rotate_right_eq]
  exact single_rotate_follows h .left p q

theorem single_rotate_left_follows (h : Twins m m') (p q : Ptr) :
    Follows Twins (single_rotate_left m p q) (single_rotate_left m' p q) := by
  rw [single_rotate_left_eq, single_rotate_left_eq]
  exact single_rotate_follows h .right p q

theorem double_rotate_right_follows (h : Twins m m') (p q r : Ptr) :
    Follows Twins (double_rotate_right m p q r) (double_rotate_right m' p q r) := by
  rw [double_rotate_right_eq, double_rotate_right_eq]
  exact double_rotate_follows h .left p q r

theorem double_rotate_left_follows (h : Twins m m') (p q r : Ptr) :
    Follows Twins (double_rotate_left m p q r) (double_rotate_left m' p q r) := by
  rw [double_rotate_left_eq, double_rotate_left_eq]
  exact double_rotate_follows h .right p q r

theorem insert_rotate_follows (h : Twins m m') {a : Int} (ha : a = -1 ∨ a = 1) (s r p : Ptr) :
    Follows TwinsWith (insert_rotate m a s r p) (insert_rotate m' a s r p) := by
  unfold insert_rotate
  refine (get_balance_follows h r).bind ?_
  rintro b _ rfl
  refine follows_ite (fun _ => ?_) fun _ => ?_
  · refine follows_join (fun _ => single_rotate_right_follows h s r) (fun _ =>
      single_rotate_left_follows h s r)
      fun _ _ h1 => ?_
    refine (set_balance_follows h1 s (by decide) (by decide)).bind fun _ _ h2 => ?_
    refine (set_balance_follows h2 r (by decide) (by decide)).bind fun _ _ h3 => ?_
    exact follows_ok ⟨h3, rfl⟩
  · refine (get_balance_follows h r).bind ?_
    rintro b1 _ rfl
    refine follows_ite (fun _ => ?_) fun _ => follows_ok ⟨h, rfl⟩
    refine h.load r fun _ x y _ _ _ hxy => ?_
    rw [hxy.left, hxy.right]
    refine follows_join (fun _ => double_rotate_right_follows h s r _)
      (fun _ => double_rotate_left_follows h s r _) fun _ _ h1 => ?_
    refine (get_balance_follows h1 _).bind ?_
    rintro b2 _ rfl
    refine (set_balance_follows h1 s (by split_ifs <;> omega) (by split_ifs <;> omega)).bind
      fun _ _ h2 => ?_
    refine (set_balance_follows h2 r (by split_ifs <;> omega) (by split_ifs <;> omega)).bind
      fun _ _ h3 => ?_
    refine (set_balance_follows h3 _ (by decide) (by decide)).bind fun _ _ h4 => ?_
    exact follows_ok ⟨h4, rfl⟩

omit [LawfulRankBalance ω] in
theorem insert_finish_follows (h : Twins m m') (t s p : Ptr) :
    Follows Twins (insert_finish m t s p) (insert_finish m' t s p) := by
  have hlink : Follows Twins (relink_right m t s p) (relink_right m' t s p) := by
    refine h.load t fun _ x y _ _ _ hxy => ?_
    rw [hxy.right]
    exact follows_ite (fun _ => set_child_follows h .right t p) fun _ =>
      set_child_follows h .left t p
  exact hlink.bind fun _ _ h1 => set_parent_follows h1 p t

theorem insert_next_follows {compare_fun : κ → κ → Int} {key : κ} {fuel : Nat}
    (ih : ∀ (m : Memory (avl_node κ ω)) (m' : Memory (avl_node κ Watched))
      (t s p : Ptr), Twins m m' →
      Follows TwinsWith (insert_search compare_fun key fuel m t s p)
        (insert_search compare_fun key fuel m' t s p))
    (h : Twins m m') (d : Side) (t s p x : Ptr) :
    Follows TwinsWith (insert_next compare_fun key fuel d m t s p x)
      (insert_next compare_fun key fuel d m' t s p x) := by
  cases x with
  | none =>
    obtain ⟨a, m1, m1', hx, hy, h1⟩ := avl_node_new_follows h key p
    simp only [insert_next, hx, hy]
    cases a with
    | none => exact follows_ok ⟨h1, rfl⟩
    | some q => exact (set_child_follows h1 d p (some q)).bind fun _ _ h2 => follows_ok ⟨h2, rfl⟩
  | some q =>
    refine (get_balance_follows h (some q)).bind ?_
    rintro b _ rfl
    exact follows_ite (fun _ => ih _ _ _ _ _ h) fun _ => ih _ _ _ _ _ h

theorem insert_search_follows (compare_fun : κ → κ → Int) (key : κ) (fuel : Nat) :
    ∀ (m : Memory (avl_node κ ω)) (m' : Memory (avl_node κ Watched)) (t s p : Ptr), Twins m m' →
      Follows TwinsWith (insert_search compare_fun key fuel m t s p)
        (insert_search compare_fun key fuel m' t s p) := by
  induction fuel with
  | zero => exact fun _ _ _ _ _ _ => follows_error _
  | succ fuel ih =>
    intro m m' t s p h
    rw [insert_search_succ, insert_search_succ]
    refine h.load p ?_
    rintro a x y rfl - hy hxy
    rw [hxy.key, hxy.left, hxy.right]
    refine follows_ite (fun _ => ?_) fun _ => insert_next_follows ih h .right t s _ _
    refine (shift_follows h hxy hy (· + 1)).bind fun _ _ h1 => ?_
    exact insert_next_follows ih h1 .left t s _ _

theorem insert_adjust_follows (compare_fun : κ → κ → Int) (key : κ) (q : Ptr) (fuel : Nat) :
    ∀ (m : Memory (avl_node κ ω)) (m' : Memory (avl_node κ Watched)) (p : Ptr), Twins m m' →
      Follows Twins (insert_adjust compare_fun key q fuel m p)
        (insert_adjust compare_fun key q fuel m' p) := by
  induction fuel with
  | zero => exact fun _ _ _ _ => follows_error _
  | succ fuel ih =>
    intro m m' p h
    refine follows_ite (fun _ => follows_ok h) fun _ => ?_
    refine h.load p fun _ x y _ _ _ hxy => ?_
    rw [hxy.key, hxy.left, hxy.right]
    refine follows_ite (fun _ => ?_) fun _ => ?_
    · exact (set_balance_follows h p (by decide) (by decide)).bind fun _ _ h1 => ih _ _ _ h1
    · exact (set_balance_follows h p (by decide) (by decide)).bind fun _ _ h1 => ih _ _ _ h1

/-- The same record, over twin memories. -/
inductive TwinTrees : avl_tree κ ω → avl_tree κ Watched → Prop
  | mk (root : Ptr) (height length : BitVec 32) (compare_fun : κ → κ → Int)
      (m : Memory (avl_node κ ω)) (m' : Memory (avl_node κ Watched)) (h : Twins m m') :
      TwinTrees ⟨root, height, length, compare_fun, m⟩ ⟨root, height, length, compare_fun, m'⟩

theorem avl_insert_follows {ob : avl_tree κ ω} {ob' : avl_tree κ Watched}
    (h : TwinTrees ob ob') (key : κ) :
    Follows (fun x y => TwinTrees x.2 y.2) (avl_insert ob key) (avl_insert ob' key) := by
  obtain ⟨root, height, length, compare_fun, m, m', h⟩ := h
  simp only [avl_insert, h.size]
  refine h.load root fun _ x y _ _ _ hxy => ?_
  rw [hxy.right]
  cases y.right with
  | none =>
    obtain ⟨a, m1, m1', hx, hy, h1⟩ := avl_node_new_follows h key root
    simp only [hx, hy]
    cases a with
    | none => exact follows_ok ⟨_, _, _, _, _, _, h1⟩
    | some q =>
      exact (set_child_follows h1 .right root (some q)).bind fun _ _ h2 =>
        follows_ok ⟨_, _, _, _, _, _, h2⟩
  | some top =>
    refine (insert_search_follows compare_fun key _ m m' root (some top) (some top) h).bind ?_
    rintro ⟨m1, place⟩ ⟨m1', _⟩ ⟨h1, rfl⟩
    obtain _ | ⟨t, s, q⟩ := place
    · exact follows_ok ⟨_, _, _, _, _, _, h1⟩
    refine h1.load s fun _ x y _ _ _ hxy => ?_
    rw [hxy.key, hxy.left, hxy.right]
    refine (insert_adjust_follows compare_fun key q _ m1 m1' _ h1).bind fun m2 m2' h2 => ?_
    refine (get_balance_follows h2 s).bind ?_
    rintro b _ rfl
    have ha : (if compare_fun key y.key < 1 then (-1 : Int) else 1) = -1 ∨
        (if compare_fun key y.key < 1 then (-1 : Int) else 1) = 1 := by
      split_ifs <;> simp
    refine follows_ite (fun _ => ?_) fun _ => follows_ite (fun _ => ?_) fun _ =>
      follows_ite (fun _ => ?_) fun _ => ?_
    · exact (set_balance_follows h2 s (by omega) (by omega)).bind fun _ _ h3 =>
        follows_ok ⟨_, _, _, _, _, _, h3⟩
    · exact (set_balance_follows h2 s (by decide) (by decide)).bind fun _ _ h3 =>
        follows_ok ⟨_, _, _, _, _, _, h3⟩
    · refine (insert_rotate_follows h2 ha s _ q).bind ?_
      rintro ⟨m3, p⟩ ⟨m3', _⟩ ⟨h3, rfl⟩
      exact (insert_finish_follows h3 t s p).bind fun _ _ h4 => follows_ok ⟨_, _, _, _, _, _, h4⟩
    · exact follows_ok ⟨_, _, _, _, _, _, h2⟩

end Insertion

/-! ## Deletion -/

section Deletion

variable {m : Memory (avl_node κ ω)} {m' : Memory (avl_node κ Watched)}

theorem rightmost_follows (fuel : Nat) (h : Twins m m') :
    ∀ y : Ptr, Follows Eq (rightmost fuel m y) (rightmost fuel m' y) := by
  induction fuel with
  | zero => exact fun _ => follows_error _
  | succ fuel ih =>
    intro p
    refine h.load p fun _ x y _ _ _ hxy => ?_
    rw [hxy.right]
    cases y.right with
    | none => exact follows_ok rfl
    | some r => exact ih (some r)

theorem delete_unlink_follows (h : Twins m m') (x : Ptr) :
    Follows (fun r r' => TwinsWith r r' ∧ (r.2.2 = -1 ∨ r.2.2 = 1)) (delete_unlink m x)
      (delete_unlink m' x) := by
  refine h.load x fun _ n n' _ _ _ hn => ?_
  rw [hn.left, hn.right, hn.parent]
  refine (set_parent_of_follows h _ _).bind fun m1 m1' h1 => ?_
  refine h1.load n'.parent fun _ z z' _ _ _ hz => ?_
  rw [hz.left]
  refine follows_ite (fun _ => ?_) fun _ => ?_
  · exact (set_child_follows h1 .left _ _).bind fun _ _ h2 => follows_ok ⟨⟨h2, rfl⟩, .inl rfl⟩
  · exact (set_child_follows h1 .right _ _).bind fun _ _ h2 => follows_ok ⟨⟨h2, rfl⟩, .inr rfl⟩

theorem relink_left_follows (h : Twins m m') (top p q : Ptr) :
    Follows Twins (relink_left m top p q) (relink_left m' top p q) := by
  refine h.load top fun _ x y _ _ _ hxy => ?_
  rw [hxy.left]
  exact follows_ite (fun _ => set_child_follows h .left top q) fun _ =>
    set_child_follows h .right top q

variable [LawfulRankBalance ω]

theorem shift_rank_bind {α β : Type} {S : α → β → Prop} (h : Twins m m') (p : Ptr) (g : Int → Int)
    {f : Memory (avl_node κ ω) → C α} {f' : Memory (avl_node κ Watched) → C β}
    (hf : ∀ n n', Twins n n' → Follows S (f n) (f' n')) :
    Follows S (get_rank m p >>= fun r => set_rank m p (g r) >>= f)
      (get_rank m' p >>= fun r => set_rank m' p (g r) >>= f') := by
  simpa only [bind_assoc] using (shift_rank_follows h p g).bind hf

theorem delete_undo_follows (root : Ptr) (fuel : Nat) :
    ∀ (m : Memory (avl_node κ ω)) (m' : Memory (avl_node κ Watched)) (x : Ptr), Twins m m' →
      Follows Twins (delete_undo root fuel m x) (delete_undo root fuel m' x) := by
  induction fuel with
  | zero => exact fun _ _ _ _ => follows_error _
  | succ fuel ih =>
    intro m m' p h
    refine h.load root fun _ x y _ _ _ hxy => ?_
    rw [hxy.right]
    refine follows_ite (fun _ => follows_ok h) fun _ => ?_
    refine h.load p fun _ x1 y1 _ _ _ hxy1 => ?_
    rw [hxy1.parent]
    refine h.load y1.parent fun _ x2 y2 _ _ _ hxy2 => ?_
    rw [hxy2.left]
    exact follows_ite (fun _ => shift_rank_bind h _ (· + 1) fun _ _ h1 => ih _ _ _ h1) fun _ =>
      ih _ _ _ h

theorem delete_search_follows (compare_fun : κ → κ → Int) (key : κ) (root : Ptr)
    (bound fuel : Nat) :
    ∀ (m : Memory (avl_node κ ω)) (m' : Memory (avl_node κ Watched)) (x : Ptr), Twins m m' →
      Follows TwinsWith (delete_search compare_fun key root bound fuel m x)
        (delete_search compare_fun key root bound fuel m' x) := by
  induction fuel with
  | zero => exact fun _ _ _ _ => follows_error _
  | succ fuel ih =>
    intro m m' p h
    rw [delete_search, delete_search]
    refine h.load p ?_
    rintro a x y rfl - hy hxy
    rw [hxy.key, hxy.left, hxy.right]
    refine follows_ite (fun _ => ?_) fun _ => follows_ite (fun _ => ?_) fun _ => follows_ok ⟨h, rfl⟩
    · refine (shift_follows h hxy hy (· - 1)).bind fun m1 m1' h1 => ?_
      cases y.left with
      | some l => exact ih _ _ _ h1
      | none =>
        refine shift_rank_bind h1 _ (· + 1) fun _ _ h2 => ?_
        exact (delete_undo_follows root bound _ _ _ h2).bind fun _ _ h3 => follows_ok ⟨h3, rfl⟩
    · cases y.right with
      | some r => exact ih _ _ _ h
      | none =>
        refine (shift_follows h hxy hy (· + 1)).bind fun m1 m1' h1 => ?_
        exact (delete_undo_follows root bound _ _ _ h1).bind fun _ _ h2 => follows_ok ⟨h2, rfl⟩

theorem delete_swap_follows (h : Twins m m') (bound : Nat) (x : Ptr) :
    Follows TwinsWith (delete_swap bound m x) (delete_swap bound m' x) := by
  refine h.load x fun _ n n' _ _ _ hn => ?_
  rw [hn.left, hn.right, hn.key]
  rcases n'.left with _ | l
  · exact follows_ok ⟨h, rfl⟩
  rcases n'.right with _ | r
  · exact follows_ok ⟨h, rfl⟩
  refine (rightmost_follows bound h (some l)).bind ?_
  rintro y _ rfl
  refine h.load y fun _ z z' _ _ _ hz => ?_
  rw [hz.key]
  refine (set_key_follows h x _).bind fun _ _ h1 => ?_
  refine (set_key_follows h1 y _).bind fun _ _ h2 => ?_
  exact shift_rank_bind h2 x (· - 1) fun _ _ h3 => follows_ok ⟨h3, rfl⟩

theorem delete_rebalance_follows (h : Twins m m') (p : Ptr) {side : Int}
    (hside : side = -1 ∨ side = 1) :
    Follows TwinsWith (delete_rebalance m p side) (delete_rebalance m' p side) := by
  unfold delete_rebalance
  refine h.load p fun _ n n' _ _ _ hn => ?_
  rw [hn.parent, hn.left, hn.right, hn.shows.1]
  refine follows_ite (fun _ => ?_) fun _ => follows_ite (fun _ => ?_) fun _ => ?_
  · refine (set_balance_follows h p (by split_ifs <;> omega) (by split_ifs <;> omega)).bind
      fun _ _ h1 => ?_
    exact follows_ok ⟨h1, rfl⟩
  · exact (set_balance_follows h p (by decide) (by decide)).bind fun _ _ h1 => follows_ok ⟨h1, rfl⟩
  · refine (get_balance_follows h _).bind ?_
    rintro bq _ rfl
    have hlink : ∀ (m1 : Memory (avl_node κ ω)) (m1' : Memory (avl_node κ Watched)) (q : Ptr)
      (shorter : Bool),
        Twins m1 m1' → Follows TwinsWith
          (relink_left m1 n'.parent p q >>= fun m => pure (m, q, shorter))
          (relink_left m1' n'.parent p q >>= fun m => pure (m, q, shorter)) := fun _ _ q _ h1 =>
      (relink_left_follows h1 _ p q).bind fun _ _ h2 => follows_ok ⟨h2, rfl⟩
    refine follows_ite (fun _ => ?_) fun _ => follows_ite (fun _ => ?_) fun _ => ?_
    · refine (set_parent_follows h _ _).bind fun _ _ h1 => ?_
      refine follows_join (fun _ => single_rotate_left_follows h1 p _)
        (fun _ => single_rotate_right_follows h1 p _) fun _ _ h2 => ?_
      refine (set_balance_follows h2 _ (by omega) (by omega)).bind fun _ _ h3 => ?_
      exact (set_balance_follows h3 p (by omega) (by omega)).bind fun _ _ h4 => hlink _ _ _ _ h4
    · refine (set_parent_follows h _ _).bind fun _ _ h1 => ?_
      refine follows_join (fun _ => single_rotate_left_follows h1 p _)
        (fun _ => single_rotate_right_follows h1 p _) fun _ _ h2 => ?_
      refine (set_balance_follows h2 _ (by decide) (by decide)).bind fun _ _ h3 => ?_
      exact (set_balance_follows h3 p (by decide) (by decide)).bind fun _ _ h4 => hlink _ _ _ _ h4
    · refine h.load _ fun _ z z' _ _ _ hz => ?_
      rw [hz.left, hz.right]
      refine (set_parent_follows h _ _).bind fun _ _ h1 => ?_
      refine follows_join (fun _ => double_rotate_right_follows h1 p _ _)
        (fun _ => double_rotate_left_follows h1 p _ _) fun _ _ h2 => ?_
      refine (get_balance_follows h2 _).bind ?_
      rintro br _ rfl
      refine (set_balance_follows h2 _ (by split_ifs <;> omega) (by split_ifs <;> omega)).bind
        fun _ _ h3 => ?_
      refine (set_balance_follows h3 p (by split_ifs <;> omega) (by split_ifs <;> omega)).bind
        fun _ _ h4 => ?_
      exact (set_balance_follows h4 _ (by decide) (by decide)).bind fun _ _ h5 => hlink _ _ _ _ h5

theorem delete_climb_follows (fuel : Nat) :
    ∀ (m : Memory (avl_node κ ω)) (m' : Memory (avl_node κ Watched)) (p : Ptr)
      (side : Int), Twins m m' →
      side = -1 ∨ side = 1 →
      Follows Twins (delete_climb fuel m p side) (delete_climb fuel m' p side) := by
  induction fuel with
  | zero => exact fun _ _ _ _ _ _ => follows_error _
  | succ fuel ih =>
    intro m m' p side h hside
    refine h.load p fun _ x y _ _ _ hxy => ?_
    rw [hxy.parent]
    cases y.parent with
    | none => exact follows_ok h
    | some a =>
      refine (delete_rebalance_follows h p hside).bind ?_
      rintro ⟨m1, z, shorter⟩ ⟨m1', _⟩ ⟨h1, rfl⟩
      refine h1.load z fun _ u u' _ _ _ hu => ?_
      rw [hu.parent]
      refine h1.load u'.parent fun _ v v' _ _ _ hv => ?_
      rw [hv.left]
      exact follows_ite (fun _ => ih _ _ _ _ h1 (by split_ifs <;> simp)) fun _ => follows_ok h1

theorem delete_front_follows {tree : avl_tree κ ω} {tree' : avl_tree κ Watched}
    (h : TwinTrees tree tree') (key : κ) :
    Follows (fun r r' => TwinsWith r r' ∧ ∀ x p side, r.2 = some (x, p, side) →
        side = -1 ∨ side = 1)
      (delete_front tree key) (delete_front tree' key) := by
  obtain ⟨root, height, length, compare_fun, m, m', h⟩ := h
  simp only [delete_front, h.size]
  refine h.load root fun _ x y _ _ _ hxy => ?_
  rw [hxy.right]
  cases y.right with
  | none => exact follows_ok ⟨⟨h, rfl⟩, by simp⟩
  | some top =>
    refine (delete_search_follows compare_fun key root _ _ m m' (some top) h).bind ?_
    rintro ⟨m1, x⟩ ⟨m1', _⟩ ⟨h1, rfl⟩
    cases x with
    | none => exact follows_ok ⟨⟨h1, rfl⟩, by simp⟩
    | some x =>
      refine (delete_swap_follows h1 _ (some x)).bind ?_
      rintro ⟨m2, z⟩ ⟨m2', _⟩ ⟨h2, rfl⟩
      refine (delete_unlink_follows h2 z).bind ?_
      rintro ⟨m3, p, side⟩ ⟨m3', _⟩ ⟨⟨h3, rfl⟩, hside⟩
      refine follows_ok ⟨⟨h3, rfl⟩, ?_⟩
      rintro _ _ _ ⟨⟩
      exact hside

theorem avl_delete_follows {tree : avl_tree κ ω} {tree' : avl_tree κ Watched}
    (h : TwinTrees tree tree') (key : κ) (free_key_fun : Option (κ → Int)) :
    Follows (fun r r' => TwinTrees r.2.1 r'.2.1) (avl_delete tree key free_key_fun)
      (avl_delete tree' key free_key_fun) := by
  rw [avl_delete_eq, avl_delete_eq]
  refine (delete_front_follows h key).bind ?_
  rintro ⟨m1, found⟩ ⟨m1', _⟩ ⟨⟨h1, rfl⟩, hside⟩
  obtain ⟨root, height, length, compare_fun, m, m', h⟩ := h
  obtain _ | ⟨x, p, side⟩ := found
  · exact follows_ok ⟨_, _, _, _, _, _, h1⟩
  · refine h1.load x fun _ n n' _ _ _ _ => ?_
    refine (h1.free x).bind fun _ _ h2 => ?_
    simp only [h.size]
    refine (delete_climb_follows _ _ _ p side h2 (hside x p side rfl)).bind fun _ _ h3 => ?_
    exact follows_ok ⟨_, _, _, _, _, _, h3⟩

end Deletion

/-! ## Runs -/

section Calls

theorem get_by_key_follows {m : Memory (avl_node κ ω)} {m' : Memory (avl_node κ Watched)}
    (h : Twins m m') (compare_fun : κ → κ → Int) (key : κ) (fuel : Nat) :
    ∀ x : Ptr,
      Follows Eq (get_by_key compare_fun key fuel m x) (get_by_key compare_fun key fuel m' x) := by
  induction fuel with
  | zero => exact fun _ => follows_error _
  | succ fuel ih =>
    intro p
    refine h.load p fun _ x y _ _ _ hxy => ?_
    rw [hxy.key, hxy.left, hxy.right]
    refine follows_ite (fun _ => ?_) fun _ => follows_ite (fun _ => ?_) fun _ => follows_ok rfl
    · cases y.left with
      | none => exact follows_ok rfl
      | some l => exact ih (some l)
    · cases y.right with
      | none => exact follows_ok rfl
      | some r => exact ih (some r)

theorem avl_get_by_key_follows {tree : avl_tree κ ω} {tree' : avl_tree κ Watched}
    (h : TwinTrees tree tree') (key : κ) :
    Follows Eq (avl_get_by_key tree key) (avl_get_by_key tree' key) := by
  obtain ⟨root, height, length, compare_fun, m, m', h⟩ := h
  simp only [avl_get_by_key, h.size]
  refine h.load root fun _ x y _ _ _ hxy => ?_
  rw [hxy.right]
  cases y.right with
  | none => exact follows_ok rfl
  | some x => exact get_by_key_follows h compare_fun key _ (some x)

variable [LawfulRankBalance ω]

theorem attempt_follows (tree : avl_tree κ ω) (tree' : avl_tree κ Watched) (c : Option Nat × Call κ)
    (h : TwinTrees tree tree') : Follows TwinTrees (attempt tree c) (attempt tree' c) := by
  obtain ⟨reply, c⟩ := c
  have hanswered : TwinTrees (answered tree reply) (answered tree' reply) := by
    obtain ⟨root, height, length, compare_fun, m, m', h⟩ := h
    exact ⟨_, _, _, _, _, _, ⟨h.keys, h.cells, rfl⟩⟩
  cases c with
  | insert key => exact (avl_insert_follows hanswered key).bind fun _ _ h1 => follows_ok h1
  | delete key free_key_fun =>
    exact (avl_delete_follows hanswered key free_key_fun).bind fun _ _ h1 => follows_ok h1

theorem attempts_follows {tree : avl_tree κ ω} {tree' : avl_tree κ Watched}
    (h : TwinTrees tree tree') (calls : List (Option Nat × Call κ)) :
    Follows TwinTrees (attempts tree calls) (attempts tree' calls) :=
  follows_foldlM attempt_follows h calls

end Calls

end Avl
