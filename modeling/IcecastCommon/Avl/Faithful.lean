import IcecastCommon.Avl.Lockstep

/-!
# The packed word is faithful

A run on packed words against the same run on unbounded fields. The ranks of a tree add up to its
nodes and the insertions that went left and got no memory, and they fit as long as that sum does.
-/

namespace Avl

open Lib

variable {κ ω : Type}

/-! ## The same tree with two kinds of words -/

section Pictures

variable [RankBalance ω]

/-- The same tree, seen with watched words. -/
inductive Pictures : BinaryTree (Item κ ω) → BinaryTree (Item κ Watched) → Prop
  | nil : Pictures .nil .nil
  | node (addr : Nat) (key : κ) (w : ω) (k : Watched) (hw : Shows w k) {l r : BinaryTree (Item κ ω)}
      {l' r' : BinaryTree (Item κ Watched)} (hl : Pictures l l') (hr : Pictures r r') :
    Pictures (.node ⟨addr, key, w⟩ l r) (.node ⟨addr, key, k⟩ l' r')

theorem Pictures.ptr {t : BinaryTree (Item κ ω)} {t' : BinaryTree (Item κ Watched)}
    (h : Pictures t t') :
    ptr t = ptr t' := by
  cases h <;> rfl

theorem Pictures.labels {t : BinaryTree (Item κ ω)} {t' : BinaryTree (Item κ Watched)}
    (h : Pictures t t') :
    labels t = labels t' := by
  induction h with
  | nil => rfl
  | node addr key w k hw hl hr ihl ihr =>
    simp only [Avl.labels, inorder_node, List.map_append, List.map_cons] at ihl ihr ⊢
    rw [ihl, ihr]

theorem Pictures.onlyRight {t : BinaryTree (Item κ ω)} {t' : BinaryTree (Item κ Watched)}
    (h : Pictures t t') (compare_fun : κ → κ → Int) (key : κ) :
    OnlyRight compare_fun key t ↔ OnlyRight compare_fun key t' := by
  induction h with
  | nil => rfl
  | node addr k w u hw hl hr ihl ihr => rw [OnlyRight, OnlyRight, ihr]

theorem owns_pictures {m : Memory (avl_node κ ω)} {m' : Memory (avl_node κ Watched)}
    (h : Twins m m') {t' : BinaryTree (Item κ Watched)} {parent : Ptr} (ht' : Owns m' parent t') :
    ∃ t, Owns m parent t ∧ Pictures t t' := by
  induction t' generalizing parent with
  | nil => exact ⟨.nil, trivial, .nil⟩
  | node i l' r' ihl ihr =>
    obtain ⟨hi, hl, hr⟩ := ht'
    obtain ⟨l, hl, hpl⟩ := ihl hl
    obtain ⟨r, hr, hpr⟩ := ihr hr
    obtain ⟨x, hx, hxy⟩ := h.cells i.addr _ hi
    rcases hxy with ⟨key, left, right, u, w, k, hw⟩
    refine ⟨.node ⟨i.addr, i.key, w⟩ l r, ⟨?_, hl, hr⟩, .node i.addr i.key w i.word hw hpl hpr⟩
    rw [hx, cell, hpl.ptr, hpr.ptr]

variable [HasNull κ]

theorem holds_pictures {m : Memory (avl_node κ ω)} {m' : Memory (avl_node κ Watched)}
    (h : Twins m m') {root : Nat} {t' : BinaryTree (Item κ Watched)} (ht' : Holds m' root [] t') :
    ∃ t, Holds m root [] t ∧ Pictures t t' := by
  obtain ⟨t, howns, hp⟩ := owns_pictures h ht'.owns
  refine ⟨t, ⟨?_, howns, ?_⟩, hp⟩
  · obtain ⟨k, hk⟩ := ht'.around
    obtain ⟨x, hx, hxy⟩ := h.cells root _ hk
    rcases hxy with ⟨key, left, right, u, w, k, hw⟩
    exact ⟨w, by rw [hx, hp.ptr]⟩
  · have hd := ht'.distinct
    rw [plug_nil, addrs, addrs_of_labels] at hd ⊢
    rwa [hp.labels]

end Pictures

theorem Pictures.packed {t : BinaryTree (Item κ (BitVec 32))} {t' : BinaryTree (Item κ Watched)}
    (h : Pictures t t') (hs : Spaced t') : t' = t.map (Item.withWord watch) := by
  induction h with
  | nil => rfl
  | node addr key w k hw hl hr ihl ihr =>
    obtain ⟨hi, hl', hr'⟩ := hs
    have hpos : 0 ≤ AVL_GET_RANK k := (Spaced.weight_nonneg hl').trans (le_of_lt hi)
    obtain ⟨r, hk⟩ := Watched.rank_of_nonneg hpos
    have hword : k = watch w := by
      obtain ⟨b, _⟩ := k
      obtain ⟨hb, hrank⟩ := hw
      obtain rfl : _ = some r := hk
      simp only [watch, hb, hrank r rfl]
      rfl
    rw [BinaryTree.map, ← ihl hl', ← ihr hr', hword]
    rfl

theorem Pictures.plain {t : BinaryTree (Item κ (BitVec 32))} {u : BinaryTree (Item κ Fields)}
    (h : Pictures u (t.map (Item.withWord watch))) : u = t.map (Item.withWord unpack) := by
  induction t generalizing u with
  | nil =>
    cases h
    rfl
  | node i l r ihl ihr =>
    rw [BinaryTree.map] at h
    rcases h with _ | ⟨addr, key, w, k, hw, hl, hr⟩
    rw [BinaryTree.map, ← ihl hl, ← ihr hr]
    obtain ⟨hb, hrank⟩ := hw
    obtain ⟨b, r⟩ := w
    obtain rfl : b = _ := hb
    obtain rfl : r = _ := hrank _ rfl
    rfl

/-! ## Refused insertions -/

section Refusals

/-- The keys along the right children from `p` on. -/
def right_keys (m : Memory (avl_node κ ω)) : Nat → Ptr → List κ
  | 0, _ => []
  | fuel + 1, p =>
    match p.bind m.get with
    | none => []
    | some n => n.key :: right_keys m fuel n.right

/-- On its way down `avl_insert` leaves a node to the left. -/
def goes_left (tree : avl_tree κ ω) (key : κ) : Bool :=
  match tree.root.bind tree.mem.get with
  | none => false
  | some n => (right_keys tree.mem tree.mem.size n.right).any fun k => tree.compare_fun key k < 1

/-- An insertion that goes left and gets no memory. -/
def left_refusal (tree : avl_tree κ ω) : Option Nat × Call κ → Nat
  | (none, .insert key) => if goes_left tree key then 1 else 0
  | _ => 0

variable [RankBalance ω]

/-- The number of such insertions in a run from `tree`. -/
def left_refusals (tree : avl_tree κ ω) : List (Option Nat × Call κ) → Nat
  | [] => 0
  | c :: calls => left_refusal tree c +
    match attempt tree c with
    | .ok tree' => left_refusals tree' calls
    | .error _ => 0

omit [RankBalance ω] in
theorem left_refusal_le (tree : avl_tree κ ω) (c : Option Nat × Call κ) :
    left_refusal tree c ≤ 1 := by
  unfold left_refusal
  split
  · split <;> omega
  · omega

theorem left_refusals_le (tree : avl_tree κ ω) (calls : List (Option Nat × Call κ)) :
    left_refusals tree calls ≤ calls.length := by
  induction calls generalizing tree with
  | nil => exact Nat.le_refl 0
  | cons c calls ih =>
    have hone := left_refusal_le tree c
    rw [left_refusals, List.length_cons]
    cases hc : attempt tree c with
    | error e =>
      dsimp only
      omega
    | ok tree' =>
      have := ih tree'
      dsimp only
      omega

theorem left_refusals_concat {tree tree' : avl_tree κ ω} {calls : List (Option Nat × Call κ)}
    (hrun : attempts tree calls = .ok tree') (c : Option Nat × Call κ) :
    left_refusals tree (calls ++ [c]) = left_refusals tree calls + left_refusal tree' c := by
  induction calls generalizing tree with
  | nil =>
    obtain rfl : tree = tree' := Except.ok.inj hrun
    rw [List.nil_append, left_refusals]
    cases hc : attempt tree c <;> simp [left_refusals, hc]
  | cons b calls ih =>
    rw [attempts, List.foldlM_cons] at hrun
    obtain ⟨tree1, hb, hrun⟩ := bind_eq_ok.mp hrun
    rw [List.cons_append, left_refusals, left_refusals, hb]
    dsimp only
    rw [ih hrun, Nat.add_assoc]

omit [RankBalance ω] in
theorem right_keys_spec {m : Memory (avl_node κ ω)} (compare_fun : κ → κ → Int) (key : κ)
    (t : BinaryTree (Item κ ω)) :
    ∀ (parent : Ptr) (fuel : Nat), Owns m parent t → t.height ≤ fuel →
      ((∃ k ∈ right_keys m fuel (ptr t), compare_fun key k < 1) ↔
      ¬ OnlyRight compare_fun key t) := by
  induction t with
  | nil =>
    rintro parent (_ | fuel) - -
    · simp [right_keys, OnlyRight]
    · simp [right_keys, OnlyRight, ptr]
  | node i l r _ ihr =>
    rintro parent fuel ⟨hi, -, hr⟩ hfuel
    rw [BinaryTree.height] at hfuel
    obtain ⟨fuel, rfl⟩ : ∃ n, fuel = n + 1 := ⟨fuel - 1, by omega⟩
    have hkeys :
        right_keys m (fuel + 1) (ptr (.node i l r)) = i.key :: right_keys m fuel (ptr r) := by
      simp only [right_keys, ptr, Option.bind_some, hi, cell]
    rw [hkeys, List.exists_mem_cons_iff, ihr (some i.addr) fuel hr (by omega), OnlyRight,
      not_and_or, not_le]

omit [RankBalance ω] in
theorem goes_left_iff [HasNull κ] {tree : avl_tree κ ω} {t : BinaryTree (Item κ ω)} {root : Nat}
    (hroot : tree.root = some root) (h : Holds tree.mem root [] t) (key : κ) :
    goes_left tree key = true ↔ ¬ OnlyRight tree.compare_fun key t := by
  obtain ⟨w, hw⟩ := h.around
  have hbound := h.numNodes_lt_size
  have hheight := t.height_le_numNodes
  rw [plug_nil] at hbound
  have hany : goes_left tree key = true ↔
      ∃ k ∈ right_keys tree.mem tree.mem.size (ptr t), tree.compare_fun key k < 1 := by
    simp only [goes_left, hroot, Option.bind_some, hw, List.any_eq_true, decide_eq_true_eq]
  rw [hany, right_keys_spec _ key t (some root) _ h.owns (by omega)]

end Refusals

/-! ## The weight along a run -/

section Weights

variable [RankBalance ω] [HasNull κ]

theorem KeyFound.seek {tree : avl_tree κ ω} {t : BinaryTree (Item κ ω)}
    (h : Stands tree t) {key : κ} (free_key_fun : Option (κ → Int))
    (hfound : KeyFound tree (.delete key free_key_fun)) :
    ∃ p i l r, seek (fun i => tree.compare_fun key i.key) t [] = (p, .node i l r) := by
  obtain ⟨k, hk⟩ := hfound
  rw [avl_get_by_key_spec key h] at hk
  rcases hs : Lib.seek (fun i : Item κ ω => tree.compare_fun key i.key) t [] with ⟨p, u⟩
  cases u with
  | nil => simp [hs, answer] at hk
  | node i l r => exact ⟨p, i, l, r, rfl⟩

variable [LawfulRankBalance ω]

/-- **One call.** The ranks stay spaced, and weigh no more than the new nodes and the refused
insertion that went left. -/
theorem attempt_spaced {tree : avl_tree κ ω} {t : BinaryTree (Item κ ω)} (h : Stands tree t)
    (c : Option Nat × Call κ) (hfound : KeyFound tree c.2) :
    ∃ tree' t', attempt tree c = .ok tree' ∧ Stands tree' t' ∧
      (Spaced t → weight t < 2 ^ 30 →
      weight t + t'.numNodes + left_refusal tree c < 2 ^ 30 + t.numNodes →
        Spaced t' ∧ weight t' + t.numNodes ≤ weight t + t'.numNodes + left_refusal tree c) := by
  obtain ⟨reply, c⟩ := c
  have ha := answered_stands h reply
  cases c with
  | insert key =>
    cases reply with
    | none =>
      obtain ⟨root, hroot, hheld⟩ := h.held
      obtain ⟨tree', t', hins, hst, hfun, hkeys, hspaced, hsame⟩ := insert_refused h key
      have hcount : t'.numNodes = t.numNodes := by rw [← keys_length, hkeys, keys_length]
      refine ⟨tree', t', by simp only [attempt, call, hins, ok_bind, pure_eq_ok], hst,
        fun hs _ hsize => ?_⟩
      by_cases hleft : goes_left tree key = true
      · simp only [left_refusal, if_pos hleft] at hsize ⊢
        obtain ⟨hs', hw⟩ := hspaced hs (by omega)
        exact ⟨hs', by omega⟩
      · rw [goes_left_iff hroot hheld, not_not] at hleft
        obtain rfl := hsame hleft
        exact ⟨hs, by omega⟩
    | some wish =>
      obtain ⟨tree', t', hins, hdone⟩ := avl_insert_spec key (ha.stores fun _ => rfl)
      obtain ⟨a, hlab⟩ := hdone.inserted.labels
      have hcount := numNodes_of_labels hlab
      refine ⟨tree', t', by simp only [attempt, call, hins, ok_bind, pure_eq_ok],
        hdone.stores.stands,
        fun hs _ hsize => ?_⟩
      simp only [left_refusal] at hsize ⊢
      obtain ⟨hs', hw⟩ := hdone.inserted.spaced hs (by omega)
      exact ⟨hs', by omega⟩
  | delete key free_key_fun =>
    obtain ⟨p, i, l, r, hseek⟩ := KeyFound.seek h free_key_fun hfound
    obtain ⟨tree', t', hdel, -, hst, -, ⟨A, B, hA, hB⟩, -, hspaced, -⟩ :=
      delete_present_stands free_key_fun ha hseek
    have hcount : t.numNodes = t'.numNodes + 1 := by
      rw [← keys_length, ← keys_length, hA, hB]
      simp
      omega
    refine ⟨tree', t', by simp only [attempt, call, hdel, ok_bind, pure_eq_ok], hst,
      fun hs hsize _ => ?_⟩
    obtain ⟨hs', hw⟩ := hspaced hs hsize
    exact ⟨hs', by simp only [left_refusal]; omega⟩

end Weights

/-! ## The three runs -/

section Runs

theorem twins_watch (tree : avl_tree κ (BitVec 32)) : TwinTrees tree (tree.withWords watch) :=
  ⟨_, _, _, _, _, _, alike_map _ _ fun n => ⟨_, _, _, _, _, _, shows_watch n.rank_and_balance⟩⟩

theorem twins_unpack {tree : avl_tree κ (BitVec 32)} {tree' : avl_tree κ Watched}
    (h : TwinTrees tree tree') :
    TwinTrees (tree.withWords unpack) tree' := by
  obtain ⟨_, _, _, _, m, m', h⟩ := h
  refine ⟨_, _, _, _, _, _, h.map_left _ ?_⟩
  rintro _ _ ⟨_, _, _, _, w, k, hw⟩
  exact ⟨_, _, _, _, _, _, hw.unpack⟩

variable [HasNull κ]

theorem TwinTrees.reads [RankBalance ω] {tree : avl_tree κ ω} {tree' : avl_tree κ Watched}
    (h : TwinTrees tree tree') {t : BinaryTree (Item κ Watched)} (ht : Stands tree' t) :
    Reads tree (keys t) := by
  obtain ⟨root, hroot, hheld⟩ := ht.held
  obtain ⟨_, _, _, _, m, m', h⟩ := h
  obtain ⟨u, hu, hp⟩ := holds_pictures h hheld
  exact ⟨root, u, hroot, hu, by rw [keys_of_labels, hp.labels, ← keys_of_labels]⟩

theorem TwinTrees.left_refusal [RankBalance ω] {tree : avl_tree κ ω} {tree' : avl_tree κ Watched}
    (h : TwinTrees tree tree') {t : BinaryTree (Item κ Watched)} (ht : Stands tree' t)
    (c : Option Nat × Call κ) :
    left_refusal tree c = left_refusal tree' c := by
  obtain ⟨root, hroot, hheld⟩ := ht.held
  obtain ⟨top, height, length, compare_fun, m, m', h⟩ := h
  obtain ⟨u, hu, hp⟩ := holds_pictures h hheld
  have hroot' : (avl_tree.mk top height length compare_fun m).root = some root := hroot
  have hleft (key : κ) : goes_left ⟨top, height, length, compare_fun, m⟩ key =
      goes_left ⟨top, height, length, compare_fun, m'⟩ key := by
    rw [Bool.eq_iff_iff, goes_left_iff hroot' hu, goes_left_iff hroot hheld, hp.onlyRight]
  unfold Avl.left_refusal
  simp only [hleft]

theorem TwinTrees.keyFound [RankBalance ω] {tree : avl_tree κ ω} {tree' : avl_tree κ Watched}
    (h : TwinTrees tree tree') {t : BinaryTree (Item κ Watched)} (ht : Stands tree' t) {c : Call κ}
    (hc : KeyFound tree c) : KeyFound tree' c := by
  cases c with
  | insert key => trivial
  | delete key free_key_fun =>
    obtain ⟨k, hk⟩ := hc
    obtain ⟨r, hr, rfl⟩ := avl_get_by_key_follows h key _ (avl_get_by_key_spec key ht)
    exact ⟨k, by rw [avl_get_by_key_spec key ht, ← hr, hk]⟩

/-- The two records differ in their memories alone. -/
def SameRecord (tree : avl_tree κ ω) (tree' : avl_tree κ (BitVec 32)) : Prop :=
  tree.root = tree'.root ∧ tree.height = tree'.height ∧ tree.length = tree'.length

/-- A deletion frees a node whose rank is not lost. -/
def FreesKept (tree : avl_tree κ Watched) : Prop :=
  ∀ key k, avl_get_by_key tree key = .ok (0, some k) →
    ∃ m a p side n, delete_front tree key = .ok (m, some (some a, p, side)) ∧ m.get a = some n ∧
      n.rank_and_balance.rank.isSome

/-- The run on packed words ends in a tree `t`. The run on unbounded fields ends in the same tree,
and so does the run on watched ones, which has lost no rank. -/
def Faithful (tree : avl_tree κ (BitVec 32)) (calls : List (Option Nat × Call κ)) : Prop :=
  ∃ words root t, attempts tree calls = .ok words ∧ words.root = some root ∧
    Holds words.mem root [] t ∧
    (∃ plain, attempts (tree.withWords unpack) calls = .ok plain ∧ SameRecord plain words ∧
      Holds plain.mem root [] (t.map (Item.withWord unpack))) ∧
    ∃ watched, attempts (tree.withWords watch) calls = .ok watched ∧ SameRecord watched words ∧
      Holds watched.mem root [] (t.map (Item.withWord watch)) ∧ FreesKept watched

theorem frees_kept {tree : avl_tree κ Watched} {t : BinaryTree (Item κ Watched)} (h : Stands tree t)
    (hs : Spaced t) :
    FreesKept tree := by
  intro key k hk
  obtain ⟨root, hroot, hheld⟩ := h.held
  obtain ⟨p, i, l, r, hseek⟩ := KeyFound.seek h none ⟨k, hk⟩
  obtain ⟨m, e, d, j, v, n, hfront, hn, -, hword, -, -, -, hswap, -⟩ :=
    delete_front_spec hroot hheld hseek
  obtain ⟨hplug, -, -, -⟩ := seek_spec (fun i : Item κ Watched => tree.compare_fun key i.key) t []
  rw [hseek, plug_nil] at hplug
  have hrank :=
    hswap.rank ((everywhere_plug p _).mp (hplug.symm ▸ hs : Spaced (plug p (.node i l r)))).1
  obtain ⟨s, hs⟩ := Watched.rank_of_nonneg hrank
  exact ⟨m, j.addr, _, _, n, hfront, hn, by rw [hword, hs]; rfl⟩

variable {compare_fun : κ → κ → Int} {m : Memory (avl_node κ (BitVec 32))}
  {tree : avl_tree κ (BitVec 32)}

theorem watched_new (hnew : avl_tree_new compare_fun m = some tree) :
    Stands (tree.withWords watch) .nil := by
  obtain ⟨⟨⟨root, hroot, hheld⟩, -, hlength⟩, -⟩ := new_stands hnew
  obtain ⟨w, hw⟩ := hheld.around
  refine ⟨⟨root, hroot, ⟨watch w, ?_⟩, trivial, hheld.distinct⟩, trivial, hlength⟩
  rw [avl_tree.withWords, Memory.get, ← Memory.get, Memory.get_map, hw]
  rfl

theorem run_watched (hnew : avl_tree_new compare_fun m = some tree)
    (calls : List (Option Nat × Call κ))
    (hfound : ∀ pre c post tree', calls = pre ++ c :: post → attempts tree pre = .ok tree' →
      KeyFound tree' c.2)
    (hsize : ∀ pre post tree' S, calls = pre ++ post → attempts tree pre = .ok tree' →
      Reads tree' S →
      S.length + left_refusals tree pre < 2 ^ 30) (pre : List (Option Nat × Call κ)) :
    ∀ post, calls = pre ++ post → ∃ words watched t, attempts tree pre = .ok words ∧
      attempts (tree.withWords watch) pre = .ok watched ∧ TwinTrees words watched ∧
      Stands watched t ∧
      Spaced t ∧ weight t ≤ t.numNodes + left_refusals tree pre := by
  induction pre using List.reverseRecOn with
  | nil => exact fun _ _ =>
    ⟨tree, _, .nil, rfl, rfl, twins_watch tree, watched_new hnew, trivial,
      by simp [weight, left_refusals]⟩
  | append_singleton pre c ih =>
    intro post hcalls
    rw [List.append_assoc, List.singleton_append] at hcalls
    obtain ⟨words, watched, t, hwords, hwatched, htwin, hst, hs, hw⟩ := ih (c :: post) hcalls
    have hfits := hsize pre _ words _ hcalls hwords (htwin.reads hst)
    obtain ⟨watched', t', hcall', hst', hspaced⟩ :=
      attempt_spaced hst c (htwin.keyFound hst (hfound pre c post words hcalls hwords))
    obtain ⟨words', hcall, htwin'⟩ := attempt_follows words watched c htwin watched' hcall'
    have hrun : attempts tree (pre ++ [c]) = .ok words' := by
      rw [attempts, List.foldlM_append, ← attempts, hwords, ok_bind, List.foldlM_cons, hcall]
      rfl
    have hfits' := hsize (pre ++ [c]) post words' _ (by simp [hcalls]) hrun (htwin'.reads hst')
    have hone := left_refusals_concat hwords c
    have hsame : left_refusal words c = left_refusal watched c := htwin.left_refusal hst c
    rw [keys_length] at hfits hfits'
    obtain ⟨hs', hw'⟩ := hspaced hs (by omega) (by omega)
    refine ⟨words', watched', t', hrun, ?_, htwin', hst', hs', by omega⟩
    rw [attempts, List.foldlM_append, ← attempts, hwatched, ok_bind, List.foldlM_cons, hcall']
    rfl

/-- **The packed word.** While the nodes and the refused insertions that went left are together
fewer than `2^30`, and every deletion finds its key, the packed words hold the same ranks and
balance factors as unbounded fields, in the same tree. No value that is stored, ever, is out of its
range, and no field disturbs the other. -/
theorem run_faithful (hnew : avl_tree_new compare_fun m = some tree)
    (calls : List (Option Nat × Call κ))
    (hfound : ∀ pre c post tree', calls = pre ++ c :: post → attempts tree pre = .ok tree' →
      KeyFound tree' c.2)
    (hsize : ∀ pre post tree' S, calls = pre ++ post → attempts tree pre = .ok tree' →
      Reads tree' S →
      S.length + left_refusals tree pre < 2 ^ 30) :
    (∀ pre post, calls = pre ++ post → Faithful tree pre) ∧
      (∀ (w : BitVec 32) (r : Int), AVL_GET_BALANCE (AVL_SET_RANK w r) = AVL_GET_BALANCE w) ∧
      ∀ (w : BitVec 32) (b : Int), -1 ≤ b → b ≤ 1 →
      AVL_GET_RANK (AVL_SET_BALANCE w b) = AVL_GET_RANK w := by
  refine ⟨fun pre post hcalls => ?_, LawfulRankBalance.balance_set_rank,
    LawfulRankBalance.rank_set_balance⟩
  obtain ⟨words, watched, t', hwords, hwatched, htwin, hst, hs, -⟩ :=
    run_watched hnew calls hfound hsize pre post hcalls
  obtain ⟨plain, hplain, htwin'⟩ :=
    attempts_follows (twins_unpack (twins_watch tree)) pre watched hwatched
  obtain ⟨root, hroot, hheld⟩ := hst.held
  have hkept := frees_kept hst hs
  obtain ⟨_, _, _, _, m1, m1', h1⟩ := htwin
  obtain ⟨_, _, _, _, m2, _, h2⟩ := htwin'
  obtain ⟨t, ht, hp⟩ := holds_pictures h1 hheld
  obtain ⟨u, hu, hpu⟩ := holds_pictures h2 hheld
  obtain rfl := hp.packed hs
  rw [hpu.plain] at hu
  exact ⟨_, root, t, hwords, hroot, ht, ⟨_, hplain, ⟨rfl, rfl, rfl⟩, hu⟩, _, hwatched,
    ⟨rfl, rfl, rfl⟩, hheld, hkept⟩

/-- Keys 5, 7, 9 and 5 again, for which the top turns, a 3 and an 11 that get no memory, and a
deletion. -/
def refused_calls : List (Option Nat × Call Nat) :=
  [(some 2, .insert 5), (some 3, .insert 7), (some 4, .insert 9), (some 5, .insert 5),
    (none, .insert 3), (none, .insert 11), (none, .delete 7 none)]

theorem run_faithful_sample :
    (∀ pre post, refused_calls = pre ++ post → Faithful sample pre) ∧
      (∀ (w : BitVec 32) (r : Int), AVL_GET_BALANCE (AVL_SET_RANK w r) = AVL_GET_BALANCE w) ∧
      ∀ (w : BitVec 32) (b : Int), -1 ≤ b → b ≤ 1 →
      AVL_GET_RANK (AVL_SET_BALANCE w b) = AVL_GET_RANK w := by
  refine run_faithful sample_new refused_calls (along_of_all (by decide +kernel))
    fun pre post tree' S hcalls hpre hS => ?_
  have hle := attempts_length_le (new_stands sample_new).1 pre hpre hS
  have hleft := left_refusals_le sample pre
  have hgranted := congrArg (fun l => (l.map granted).sum) hcalls
  have hlen := congrArg List.length hcalls
  simp [granted, refused_calls, BinaryTree.numNodes] at hle hgranted hlen
  omega

end Runs

/-! ## Too many refused insertions -/

section Starved

/-- The key 5, and then 3 again and again, without memory. -/
def starved (n : Nat) : List (Option Nat × Call Nat) :=
  (some 2, .insert 5) :: List.replicate n (none, .insert 3)

theorem starved_succ (n : Nat) : starved (n + 1) = starved n ++ [(none, .insert 3)] := by
  rw [starved, starved, List.replicate_succ', List.cons_append]

theorem starved_plain (n : Nat) :
    ∃ plain, attempts (sample.withWords unpack) (starved n) = .ok plain ∧
    plain.root = some 1 ∧ plain.compare_fun = byAddress ∧
    Holds plain.mem 1 [] (.node ⟨2, 5, ⟨0, n + 1⟩⟩ .nil .nil) := by
  induction n with
  | zero => exact ⟨_, rfl, rfl, rfl, ⟨⟨_, rfl⟩, ⟨rfl, trivial, trivial⟩, by decide⟩⟩
  | succ n ih =>
    obtain ⟨plain, hrun, hroot, hfun, h⟩ := ih
    obtain ⟨m', hins, h'⟩ :=
      avl_insert_fails 3 (show (answered plain none).root = some 1 from hroot)
        (h.congr fun _ _ => rfl) rfl
    refine ⟨{ answered plain none with mem := m' }, ?_, hroot, hfun, ?_⟩
    · rw [starved_succ, attempts, List.foldlM_append, ← attempts, hrun, ok_bind, List.foldlM_cons,
        attempt, call, hins]
      rfl
    · have hcmp : (answered plain none).compare_fun = byAddress := hfun
      rw [hcmp] at h'
      exact_mod_cast h'

theorem starved_found (n : Nat) (pre : List (Option Nat × Call Nat)) (c : Option Nat × Call Nat)
    (post : List (Option Nat × Call Nat)) (tree' : avl_tree Nat (BitVec 32))
    (hcalls : starved n = pre ++ c :: post) :
    KeyFound tree' c.2 := by
  have hc : c ∈ starved n := by
    rw [hcalls]
    exact List.mem_append_right _ List.mem_cons_self
  rcases List.mem_cons.mp hc with rfl | hc
  · trivial
  · rw [List.eq_of_mem_replicate hc]
    trivial

theorem starved_short (n : Nat) (pre post : List (Option Nat × Call Nat))
    (tree' : avl_tree Nat (BitVec 32)) (S : List Nat) (hcalls : starved n = pre ++ post)
    (hpre : attempts sample pre = .ok tree') (hS : Reads tree' S) :
    S.length ≤ 1 := by
  have hle := attempts_length_le (new_stands sample_new).1 pre hpre hS
  have hgranted := congrArg (fun l => (l.map granted).sum) hcalls
  simp only [starved, List.map_cons, List.map_replicate, List.sum_cons, List.map_append,
    List.sum_append, granted, List.sum_replicate_nat, Nat.mul_zero,
    BinaryTree.numNodes] at hle hgranted
  omega

/-- One node, and `2^30 - 1` insertions that get no memory: the rank of the node no longer fits. -/
theorem run_unfaithful : avl_tree_new byAddress (fresh Nat (BitVec 32)) = some sample ∧
    (∀ pre c post tree', starved (2 ^ 30 - 1) = pre ++ c :: post → attempts sample pre = .ok tree' →
      KeyFound tree' c.2) ∧
    (∀ pre post tree' S, starved (2 ^ 30 - 1) = pre ++ post → attempts sample pre = .ok tree' →
      Reads tree' S →
      S.length < 2 ^ 30) ∧
    ¬ Faithful sample (starved (2 ^ 30 - 1)) := by
  refine ⟨sample_new, fun pre c post tree' hcalls _ => starved_found _ pre c post tree' hcalls,
    fun pre post tree' S hcalls hpre hS =>
      (starved_short _ pre post tree' S hcalls hpre hS).trans_lt (by norm_num), ?_⟩
  rintro ⟨words, root, t, -, hroot, -, ⟨plain, hplain, ⟨hsame, -, -⟩, ht⟩, -⟩
  obtain ⟨plain', hplain', hroot', -, h⟩ := starved_plain (2 ^ 30 - 1)
  obtain rfl := Except.ok.inj (hplain.symm.trans hplain')
  obtain rfl : 1 = root := Option.some.inj (hroot'.symm.trans (hsame.trans hroot))
  have hrank := congrArg (fun u : BinaryTree (Item Nat Fields) => match u with
    | .nil => 0
    | .node i _ _ => i.word.rank) (ht.unique h)
  cases t with
  | nil => simp [BinaryTree.map] at hrank
  | node i l r =>
    have hshort := packed_rank_short i.word
    simp only [BinaryTree.map, Item.withWord, unpack] at hrank
    omega

end Starved

end Avl
