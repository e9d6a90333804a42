import IcecastCommon.Avl.Lookup

/-!
# The tree as a sorted sequence

What a tree record stands for is the sequence of its keys. Under a total preorder the three
operations are operations on that sequence.
-/

namespace Avl

open Lib

variable {κ ω : Type} [HasNull κ]

/-- The keys of the tree in order are `S`. -/
def Reads (tree : avl_tree κ ω) (S : List κ) : Prop :=
  ∃ root, ∃ t : BinaryTree (Item κ ω), tree.root = some root ∧ Holds tree.mem root [] t ∧ keys t = S

omit [HasNull κ] in
theorem owns_unique {m : Memory (avl_node κ ω)} {t t' : BinaryTree (Item κ ω)} {parent : Ptr}
    (h : Owns m parent t) (h' : Owns m parent t') (hp : ptr t = ptr t') : t = t' := by
  induction t generalizing t' parent with
  | nil =>
    cases t' with
    | nil => rfl
    | node i l r => cases hp
  | node i l r ihl ihr =>
    cases t' with
    | nil => cases hp
    | node j x y =>
      obtain ⟨hi, hl, hr⟩ := h
      obtain ⟨hj, hx, hy⟩ := h'
      obtain ⟨a, ki, wi⟩ := i
      obtain ⟨b, kj, wj⟩ := j
      obtain rfl : a = b := by simpa [ptr] using hp
      simp only [hi, cell, Option.some.injEq, avl_node.mk.injEq] at hj
      obtain ⟨rfl, hptrl, hptrr, -, rfl⟩ := hj
      rw [ihl hl hx hptrl, ihr hr hy hptrr]

theorem Holds.unique {m : Memory (avl_node κ ω)} {root : Nat} {t t' : BinaryTree (Item κ ω)}
    (h : Holds m root [] t) (h' : Holds m root [] t') : t = t' := by
  obtain ⟨w, hw⟩ := h.around
  obtain ⟨w', hw'⟩ := h'.around
  rw [hw, Option.some.injEq, avl_node.mk.injEq] at hw'
  exact owns_unique h.owns h'.owns hw'.2.2.1

theorem Reads.unique {tree : avl_tree κ ω} {S : List κ} (h : Reads tree S) {root : Nat}
    {t : BinaryTree (Item κ ω)} (hroot : tree.root = some root) (ht : Holds tree.mem root [] t) :
    S = keys t := by
  obtain ⟨root', t', hroot', ht', rfl⟩ := h
  obtain rfl : root = root' := Option.some.inj (hroot.symm.trans hroot')
  rw [ht.unique ht']

variable [RankBalance ω]

theorem Stores.reads {tree : avl_tree κ ω} {t : BinaryTree (Item κ ω)} (h : Stores tree t) :
    Reads tree (keys t) := by
  obtain ⟨root, hroot, hheld⟩ := h.held
  exact ⟨root, t, hroot, hheld, rfl⟩

theorem Stores.keys_eq {tree : avl_tree κ ω} {t : BinaryTree (Item κ ω)} (h : Stores tree t)
    {S : List κ} (hS : Reads tree S) : S = keys t := by
  obtain ⟨root, hroot, hheld⟩ := h.held
  exact hS.unique hroot hheld

omit [HasNull κ] [RankBalance ω] in
theorem probed_keys {cmp : κ → κ → Int} (hcmp : TotalPreorder cmp) (key : κ)
    {t : BinaryTree (Item κ ω)} (ht : Sorted cmp (keys t)) :
    Probed (fun i : Item κ ω => cmp key i.key) (inorder t) :=
  probed_of_sorted hcmp key (fun i : Item κ ω => i.key) ht

omit [HasNull κ] [RankBalance ω] in
theorem keys_around {cmp : κ → κ → Int} (hcmp : TotalPreorder cmp) (key : κ) {p : Int → Prop}
    {c : List (Frame (Item κ ω))} {u : BinaryTree (Item κ ω)} (ht : Sorted cmp (keys (plug c u)))
    (hled : Led (fun i : Item κ ω => cmp key i.key) p c)
    (hstep : ∀ x y : Int, p x → (0 < y → 0 < x) ∧ (x < 0 → y < 0) → p y) :
    (∀ k ∈ (before c).map (·.key), 0 < cmp key k) ∧ ∀ k ∈ (after c).map (·.key), p (cmp key k) := by
  have hprobe := probed_keys hcmp key ht
  rw [inorder_plug] at hprobe
  have hb :=
    led_before c
      (hprobe.sublist ((List.sublist_append_left _ _).trans (List.sublist_append_left _ _))) hled
  have ha := led_after c (hprobe.sublist (List.sublist_append_right _ _)) hled fun x y => hstep _ _
  simp only [List.forall_mem_map]
  exact ⟨hb, ha⟩

variable {t : BinaryTree (Item κ ω)}

omit [HasNull κ] [RankBalance ω] in
theorem absent_of_seek {cmp : κ → κ → Int} (hcmp : TotalPreorder cmp) {key : κ}
    {p : List (Frame (Item κ ω))} (ht : Sorted cmp (keys t))
    (hs : seek (fun i : Item κ ω => cmp key i.key) t [] = (p, .nil)) :
    ∀ k ∈ keys t, cmp key k ≠ 0 := by
  obtain ⟨hplug, hled, -, -⟩ := seek_spec (fun i : Item κ ω => cmp key i.key) t []
  rw [hs, plug_nil] at hplug
  rw [hs] at hled
  obtain ⟨hb, ha⟩ := keys_around hcmp key (hplug.symm ▸ ht : Sorted _ (keys (plug p _)))
    (hled (by simp [Led])) (fun x y hx hxy => hxy.2 hx)
  intro k hk
  rw [← hplug, keys_plug, keys_nil, List.append_nil, List.mem_append] at hk
  rcases hk with hk | hk
  · have := hb k hk
    omega
  · have := ha k hk
    omega

/-- **Lookup** finds a key that compares equal, if there is one. -/
theorem lookup_sequence {tree : avl_tree κ ω} (hcmp : TotalPreorder tree.compare_fun) (key : κ)
    (h : Stores tree t) (ht : Sorted tree.compare_fun (keys t)) :
    (∃ k ∈ keys t, tree.compare_fun key k = 0 ∧ avl_get_by_key tree key = .ok (0, some k)) ∨
    ((∀ k ∈ keys t, tree.compare_fun key k ≠ 0) ∧ avl_get_by_key tree key = .ok (-1, none)) := by
  have hrun := avl_get_by_key_spec key h.stands
  rcases hs : seek (fun i : Item κ ω => tree.compare_fun key i.key) t [] with ⟨p, u⟩
  rw [hs] at hrun
  cases u with
  | nil => exact Or.inr ⟨absent_of_seek hcmp ht hs, hrun⟩
  | node i l r =>
    obtain ⟨hplug, -, hfound, -⟩ := seek_spec (fun i : Item κ ω => tree.compare_fun key i.key) t []
    rw [hs] at hplug hfound
    refine Or.inl ⟨i.key, ?_, hfound i l r rfl, hrun⟩
    rw [plug_nil] at hplug
    rw [← hplug, keys_plug]
    simp

variable [LawfulRankBalance ω]

/-- **Insertion** puts the key in front of all that do not compare less. -/
theorem insert_sequence {ob : avl_tree κ ω} (hcmp : TotalPreorder ob.compare_fun) (key : κ)
    (h : Stores ob t) (ht : Sorted ob.compare_fun (keys t)) :
    ∃ ob' t', avl_insert ob key = .ok (0, ob') ∧ InsertDone ob ob' key t t' ∧
      keys t' = (keys t).filter (fun x => ob.compare_fun x key < 0) ++ [key] ++
        (keys t).filter (fun x => 0 ≤ ob.compare_fun x key) ∧ Sorted ob.compare_fun (keys t') := by
  obtain ⟨ob', t', hrun, hdone⟩ := avl_insert_spec key h
  refine ⟨ob', t', hrun, hdone, ?_⟩
  obtain ⟨a, hlab⟩ := hdone.inserted.labels
  have hplug := plug_route (fun i : Item κ ω => ob.compare_fun key i.key) t []
  have hled := led_route (fun i : Item κ ω => ob.compare_fun key i.key) t [] (by simp [Led])
  generalize hc : route (fun i : Item κ ω => ob.compare_fun key i.key) t [] = c at hlab hplug hled
  rw [plug_nil] at hplug
  have hkeys : keys t = (before c).map (·.key) ++ (after c).map (·.key) := by
    rw [← hplug, keys_plug, keys_nil, List.append_nil]
  have hkeys' : keys t' = (before c).map (·.key) ++ key :: (after c).map (·.key) := by
    rw [keys_of_labels, hlab]
    simp [Function.comp_def]
  obtain ⟨hb, ha⟩ :=
    keys_around hcmp key (hplug.symm ▸ ht : Sorted _ (keys (plug c _))) hled (by omega)
  obtain ⟨hleft, hright⟩ := filter_split (fun x => decide (ob.compare_fun x key < 0))
    (fun x => decide (0 ≤ ob.compare_fun x key)) (A := (before c).map (·.key))
    (B := (after c).map (·.key))
    (fun x hx => by
      have := hb x hx
      have := hcmp.flip x key
      simp only [decide_eq_true_eq, decide_eq_false_iff_not]
      omega)
    (fun x hx => by
      have := ha x hx
      have := hcmp.flip x key
      simp only [decide_eq_true_eq, decide_eq_false_iff_not]
      omega)
  constructor
  · rw [hkeys, hleft, hright, hkeys', List.append_assoc]
    rfl
  · rw [hkeys] at ht
    obtain ⟨h1, h2, h3⟩ := List.pairwise_append.mp ht
    rw [hkeys']
    refine List.pairwise_append.mpr ⟨h1, List.pairwise_cons.mpr ⟨fun x hx => ?_, h2⟩,
      fun x hx y hy => ?_⟩
    · have := ha x hx
      omega
    · rcases List.mem_cons.mp hy with rfl | hy
      · have := hb x hx
        have := hcmp.flip x y
        omega
      · exact h3 x hx y hy

/-- **Deletion** takes out one key that compares equal, and hands it to `free_key_fun`. -/
theorem delete_sequence {tree : avl_tree κ ω} (hcmp : TotalPreorder tree.compare_fun) (key : κ)
    (free_key_fun : Option (κ → Int)) (h : Stores tree t) (ht : Sorted tree.compare_fun (keys t)) :
    (∃ tree' t' i, avl_delete tree key free_key_fun =
        .ok (0, tree', if free_key_fun.isSome then [i.key] else []) ∧
      DeleteDone tree tree' key i t t' ∧ Sorted tree.compare_fun (keys t')) ∨
    ((∀ k ∈ keys t, tree.compare_fun key k ≠ 0) ∧
      ∃ m' t', avl_delete tree key free_key_fun = .ok (-1, { tree with mem := m' }, []) ∧
        Stores { tree with mem := m' } t' ∧ labels t' = labels t) := by
  rcases hs : seek (fun i : Item κ ω => tree.compare_fun key i.key) t [] with ⟨p, u⟩
  cases u with
  | nil =>
    right
    obtain ⟨m', hrun, hst, hlab⟩ := avl_delete_absent free_key_fun h hs
    exact ⟨absent_of_seek hcmp ht hs, m', _, hrun, hst, hlab⟩
  | node i l r =>
    left
    obtain ⟨tree', t', hrun, hdone⟩ := avl_delete_present free_key_fun h hs
    obtain ⟨A, B, hA, hB⟩ := hdone.keys
    refine ⟨tree', t', i, hrun, hdone, ?_⟩
    rw [hB]
    rw [hA] at ht
    exact ht.sublist (List.Sublist.append_left (List.sublist_cons_self _ _) A)

end Avl
