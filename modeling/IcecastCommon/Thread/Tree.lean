import IcecastCommon.Thread.Code
import IcecastCommon.Avl.Iterate

/-!
# The tree of records

The tree is a set of records that the numbers order. `thread_self` finds the first one with the
`pthread_t` of the caller.
-/

namespace Thread

open Lib Avl

theorem compare_preorder : TotalPreorder _compare_threads := by
  constructor
  · intro a b
    unfold _compare_threads
    split_ifs <;> omega
  · intro a b c
    unfold _compare_threads
    split_ifs <;> omega

@[simp] theorem id_of_some (t : thread_type) : id_of (some t) = t.thread_id := rfl

theorem compare_neg (a b : thread_type) :
    _compare_threads (some a) (some b) < 0 ↔ a.thread_id < b.thread_id := by
  unfold _compare_threads
  rw [id_of_some, id_of_some]
  split_ifs <;> omega

theorem compare_zero (a b : thread_type) :
    _compare_threads (some a) (some b) = 0 ↔ a.thread_id = b.thread_id := by
  have hab := compare_neg a b
  have hba := compare_neg b a
  have hflip := compare_preorder.flip (some b) (some a)
  omega

/-- The tree holds these records. -/
structure Records (tree : avl_tree Key (BitVec 32)) (R : List thread_type) : Prop where
  holds : ∃ t, Stands tree t ∧ keys t = R.map some
  compare_fun : tree.compare_fun = _compare_threads
  ordered : R.Pairwise fun a b => a.thread_id < b.thread_id

variable {tree : avl_tree Key (BitVec 32)} {R : List thread_type}

theorem Records.sorted (h : Records tree R) : Sorted tree.compare_fun (R.map some) := by
  rw [h.compare_fun]
  refine List.pairwise_map.mpr (h.ordered.imp fun hlt => ?_)
  exact ((compare_neg _ _).mpr hlt).le

theorem Records.unique (h : Records tree R) {R' : List thread_type} (h' : Records tree R') :
    R = R' := by
  obtain ⟨t, hst, hkeys⟩ := h.holds
  obtain ⟨t', hst', hkeys'⟩ := h'.holds
  obtain ⟨root, hroot, hheld⟩ := hst.held
  obtain ⟨root', hroot', hheld'⟩ := hst'.held
  obtain rfl : root = root' := Option.some.inj (hroot.symm.trans hroot')
  rw [hheld.unique hheld', hkeys'] at hkeys
  exact (List.map_injective_iff.mpr (Option.some_injective _) hkeys).symm

theorem new_records {m : Memory (avl_node Key (BitVec 32))}
    (hnew : avl_tree_new _compare_threads m = some tree) :
    Records tree [] := by
  obtain ⟨hst, hfun⟩ := new_stands hnew
  exact ⟨⟨.nil, hst, rfl⟩, hfun, List.Pairwise.nil⟩

theorem Records.refuse (h : Records tree R) (key : Key) :
    ∃ tree', avl_insert (answered tree none) key = .ok (-1, tree') ∧ Records tree' R := by
  obtain ⟨t, hst, hkeys⟩ := h.holds
  obtain ⟨tree', t', hins, hst', hfun, hkeys', -⟩ := insert_refused hst key
  exact ⟨tree', hins, ⟨t', hst', hkeys'.trans hkeys⟩, hfun.trans h.compare_fun, h.ordered⟩

theorem Records.insert (h : Records tree R) (th : thread_type)
    (hnew : ∀ r ∈ R, r.thread_id ≠ th.thread_id) (wish : Nat) :
    ∃ tree' R', avl_insert (answered tree (some wish)) (some th) = .ok (0, tree') ∧
      Records tree' R' ∧
      ∀ r, r ∈ R' ↔ r = th ∨ r ∈ R := by
  obtain ⟨t, hst, hkeys⟩ := h.holds
  have hcmp : TotalPreorder tree.compare_fun := h.compare_fun ▸ compare_preorder
  obtain ⟨tree', t', hins, hst', hfun, -, hkeys'⟩ :=
    insert_granted hcmp hst (hkeys ▸ h.sorted) (some th) wish
  refine ⟨tree', R.filter (fun r => r.thread_id < th.thread_id) ++ [th] ++
    R.filter (fun r => th.thread_id ≤ r.thread_id), hins,
    ⟨⟨t', hst', ?_⟩, hfun.trans h.compare_fun, ?_⟩, ?_⟩
  · rw [hkeys', hkeys, h.compare_fun, List.filter_map, List.filter_map, List.map_append,
      List.map_append]
    have hleft : ((fun k : Key => decide (_compare_threads k (some th) < 0)) ∘ some) =
        fun r => decide (r.thread_id < th.thread_id) := by
      funext r
      simp [compare_neg]
    have hright : ((fun k : Key => decide (0 ≤ _compare_threads k (some th))) ∘ some) =
        fun r => decide (th.thread_id ≤ r.thread_id) := by
      funext r
      have := compare_neg r th
      simp only [Function.comp_apply, decide_eq_decide]
      omega
    rw [hleft, hright]
    rfl
  · rw [List.append_assoc, List.singleton_append]
    refine List.pairwise_append.mpr ⟨h.ordered.filter _,
      List.pairwise_cons.mpr ⟨fun r hr => ?_, h.ordered.filter _⟩,
      fun r hr r' hr' => ?_⟩
    · rw [List.mem_filter, decide_eq_true_eq] at hr
      exact lt_of_le_of_ne hr.2 (Ne.symm (hnew r hr.1))
    · rw [List.mem_filter, decide_eq_true_eq] at hr
      rw [List.mem_cons, List.mem_filter, decide_eq_true_eq] at hr'
      rcases hr' with rfl | hr'
      · exact hr.2
      · exact hr.2.trans_le hr'.2
  · intro r
    simp only [List.mem_append, List.mem_filter, List.mem_singleton, decide_eq_true_eq]
    constructor
    · rintro ((⟨hr, -⟩ | rfl) | ⟨hr, -⟩)
      · exact .inr hr
      · exact .inl rfl
      · exact .inr hr
    · rintro (rfl | hr)
      · exact .inl (.inr rfl)
      · rcases lt_or_ge r.thread_id th.thread_id with hlt | hge
        · exact .inl (.inl ⟨hr, hlt⟩)
        · exact .inr ⟨hr, hge⟩

theorem Records.delete (h : Records tree R) (th : thread_type) (free_key_fun : Option (Key → Int)) :
    ∃ ret tree' freed R', avl_delete tree (some th) free_key_fun = .ok (ret, tree', freed) ∧
      Records tree' R' ∧
      ∀ r, r ∈ R' ↔ r ∈ R ∧ r.thread_id ≠ th.thread_id := by
  obtain ⟨t, hst, hkeys⟩ := h.holds
  have hcmp : TotalPreorder tree.compare_fun := h.compare_fun ▸ compare_preorder
  obtain ⟨ret, tree', freed, t', hdel, hst', hfun, hcases⟩ :=
    delete_keys hcmp hst (hkeys ▸ h.sorted) (some th) free_key_fun
  rcases hcases with ⟨A, k, B, hsplit, hrest, hfound⟩ | ⟨habsent, hsame⟩
  · rw [hkeys] at hsplit
    obtain ⟨A', R1, rfl, rfl, hR1⟩ := List.map_eq_append_iff.mp hsplit
    obtain ⟨r, B', rfl, rfl, rfl⟩ := List.map_eq_cons_iff.mp hR1
    have hid : th.thread_id = r.thread_id := by
      rw [h.compare_fun] at hfound
      exact (compare_zero th r).mp hfound
    obtain ⟨hA, hB, hAB⟩ := List.pairwise_append.mp h.ordered
    obtain ⟨hrB, hB'⟩ := List.pairwise_cons.mp hB
    refine ⟨ret, tree', freed, A' ++ B', hdel,
      ⟨⟨t', hst', ?_⟩, hfun.trans h.compare_fun, ?_⟩, fun x => ?_⟩
    · rw [hrest, List.map_append]
    · exact List.pairwise_append.mpr ⟨hA, hB', fun x hx y hy =>
        hAB x hx y (List.mem_cons_of_mem r hy)⟩
    · rw [hid]
      simp only [List.mem_append, List.mem_cons]
      constructor
      · rintro (hx | hx)
        · exact ⟨.inl hx, (hAB x hx r (by simp)).ne⟩
        · exact ⟨.inr (.inr hx), (hrB x hx).ne'⟩
      · rintro ⟨hx | rfl | hx, hne⟩
        · exact .inl hx
        · exact absurd rfl hne
        · exact .inr hx
  · refine ⟨ret, tree', freed, R, hdel,
      ⟨⟨t', hst', hsame.trans hkeys⟩, hfun.trans h.compare_fun, h.ordered⟩, ?_⟩
    intro r
    refine ⟨fun hr => ⟨hr, fun heq => ?_⟩, And.left⟩
    refine habsent (some r) ?_ ?_
    · rw [hkeys]
      exact List.mem_map_of_mem hr
    · rw [h.compare_fun]
      exact (compare_zero th r).mpr heq.symm

/-! ## The walk of `thread_self` -/

theorem self_loop_spec {m : Memory (avl_node Key (BitVec 32))} {root : Nat}
    {t : BinaryTree (Item Key (BitVec 32))} (h : Holds m root [] t)
    (hkeys : ∀ k ∈ keys t, k ≠ HasNull.NULL) (sys_thread : pthread_t)
    (B : List (Item Key (BitVec 32))) :
    ∀ (A : List (Item Key (BitVec 32))) (fuel : Nat), inorder t = A ++ B → B.length ≤ fuel →
      self_loop m sys_thread fuel (firstOf B) =
        .ok ((B.map (·.key)).find? fun k =>
          k.map thread_type.sys_thread = some sys_thread).join := by
  induction B with
  | nil =>
    intro A fuel _ _
    cases fuel <;> rfl
  | cons i B ih =>
    intro A fuel hsplit hfuel
    rw [List.length_cons] at hfuel
    obtain ⟨fuel, rfl⟩ : ∃ n, fuel = n + 1 := ⟨fuel - 1, by omega⟩
    have hnext := (neighbours h hkeys hsplit).1
    have hrest := ih (A ++ [i]) fuel (by rw [hsplit]; simp) (by omega)
    obtain ⟨x, hx, hkey⟩ := load_item h hsplit
    change self_loop m sys_thread (fuel + 1) (some i.addr) = _
    unfold self_loop
    refine run_bind hx ?_
    rw [hkey, List.map_cons, List.find?_cons]
    by_cases hfound : i.key.map thread_type.sys_thread = some sys_thread
    · rw [if_pos hfound, decide_eq_true hfound]
      rfl
    · rw [if_neg hfound, decide_eq_false hfound]
      exact run_bind hnext hrest

/-- The first record with the `pthread_t` of the caller. -/
theorem Records.self (h : Records tree R) (sys_thread : pthread_t) :
    thread_self tree sys_thread = .ok (R.find? fun r => r.sys_thread = sys_thread) := by
  obtain ⟨t, hst, hkeys⟩ := h.holds
  obtain ⟨root, hroot, hheld⟩ := hst.held
  have hnull : ∀ k ∈ keys t, k ≠ HasNull.NULL := by
    intro k hk
    rw [hkeys] at hk
    obtain ⟨r, -, rfl⟩ := List.mem_map.mp hk
    exact Option.some_ne_none r
  have hbound := hheld.numNodes_lt_size
  rw [plug_nil] at hbound
  unfold thread_self
  refine run_bind (get_first_spec hroot hheld hnull) ?_
  rw [self_loop_spec hheld hnull sys_thread _ [] _ rfl (by rw [inorder_length]; omega)]
  change Except.ok ((keys t).find? _).join = _
  rw [hkeys, List.find?_map]
  have hsame : ((fun k : Key => decide (k.map thread_type.sys_thread = some sys_thread)) ∘ some) =
      fun r => decide (r.sys_thread = sys_thread) := by
    funext r
    simp
  rw [hsame]
  cases R.find? fun r => decide (r.sys_thread = sys_thread) <;> rfl

theorem Records.self_own (h : Records tree R) {th : thread_type} (hmem : th ∈ R)
    (hleast : ∀ r ∈ R, r.sys_thread = th.sys_thread → th.thread_id ≤ r.thread_id) :
    thread_self tree th.sys_thread = .ok (some th) := by
  rw [h.self]
  refine congrArg Except.ok (find?_least h.ordered hmem (by simp) fun r hr hp => ?_)
  exact Nat.not_lt.mpr (hleast r hr (by simpa using hp))

theorem Records.self_other (h : Records tree R) {r th : thread_type} (hr : r ∈ R)
    (hsame : r.sys_thread = th.sys_thread) (hlt : r.thread_id < th.thread_id) :
    thread_self tree th.sys_thread ≠ .ok (some th) := by
  rw [h.self]
  intro hfind
  obtain ⟨-, A, B, rfl, hfirst⟩ := List.find?_eq_some_iff_append.mp (Except.ok.inj hfind)
  obtain ⟨-, hB, -⟩ := List.pairwise_append.mp h.ordered
  rw [List.mem_append, List.mem_cons] at hr
  rcases hr with hr | rfl | hr
  · have hne := hfirst r hr
    simp [hsame] at hne
  · exact lt_irrefl _ hlt
  · exact lt_asymm hlt ((List.pairwise_cons.mp hB).1 r hr)

end Thread
