import IcecastCommon.Thread.Self

/-!
# What becomes of the records

A record goes into the tree when its thread starts, and comes out when that is joined or, detached,
leaves. Whatever the schedule, none is freed twice, and none under a thread that goes on.
-/

namespace Thread

open Lib Avl

theorem Records.take {tree : avl_tree Key (BitVec 32)} {R : List thread_type} (h : Records tree R)
    (th : thread_type) :
    ∃ ret tree' freed R', avl_delete tree (some th) (some fun _ => 1) =
      .ok (ret, tree', freed.map some) ∧ Records tree' R' ∧
      (∀ r, r ∈ R' ↔ r ∈ R ∧ r.thread_id ≠ th.thread_id) ∧
      (freed = [] ∧ (∀ r ∈ R, r.thread_id ≠ th.thread_id) ∨ ∃ r ∈ R, freed = [r] ∧
      r.thread_id = th.thread_id) := by
  obtain ⟨ret, tree', freed, R', hdel, htree, hmem⟩ := h.delete th (some fun _ => 1)
  obtain ⟨t, hst, hkeys⟩ := h.holds
  rcases hs : seek (fun i : Item Key (BitVec 32) => tree.compare_fun (some th) i.key) t []
    with ⟨p, u⟩
  cases u with
  | nil =>
    obtain ⟨m', hdel', -⟩ := delete_absent_stands (some fun _ => 1) hst hs
    have hcmp : TotalPreorder tree.compare_fun := h.compare_fun ▸ compare_preorder
    have habsent := absent_of_seek hcmp (hkeys ▸ h.sorted) hs
    refine ⟨ret, tree', [], R', ?_, htree, hmem, .inl ⟨rfl, fun r hr heq => ?_⟩⟩
    · rw [hdel'] at hdel ⊢
      cases hdel
      rfl
    · refine habsent (some r) ?_ ?_
      · rw [hkeys]
        exact List.mem_map_of_mem hr
      · rw [h.compare_fun]
        exact (compare_zero th r).mpr heq.symm
  | node i l r =>
    obtain ⟨tree'', t', hdel', -, -, -, ⟨A, B, hA, -⟩, hfound, -⟩ :=
      delete_present_stands (some fun _ => 1) hst hs
    have hi : i.key ∈ R.map some := by
      rw [← hkeys, hA]
      simp
    obtain ⟨r, hr, hri⟩ := List.mem_map.mp hi
    refine ⟨ret, tree', [r], R', ?_, htree, hmem, .inr ⟨r, hr, rfl, ?_⟩⟩
    · rw [hdel'] at hdel ⊢
      cases hdel
      simp [hri]
    · rw [h.compare_fun, ← hri] at hfound
      exact ((compare_zero th r).mp hfound).symm

theorem Records.taken {tree : avl_tree Key (BitVec 32)} {R R' freed : List thread_type}
    (h : Records tree R) {id : Nat} (hiff : ∀ r, r ∈ R' ↔ r ∈ R ∧ r.thread_id ≠ id)
    (hcases : freed = [] ∧ (∀ r ∈ R, r.thread_id ≠ id) ∨ ∃ r ∈ R, freed = [r] ∧ r.thread_id = id) :
    ∀ r ∈ R, r ∈ R' ∨ r ∈ freed := by
  intro r hr
  by_cases hid : r.thread_id = id
  · obtain ⟨-, habsent⟩ | ⟨q, hq, rfl, hqid⟩ := hcases
    · exact absurd hid (habsent r hr)
    · have hnodup : (R.map thread_type.thread_id).Nodup :=
        List.pairwise_map.mpr (h.ordered.imp fun hlt => hlt.ne)
      obtain rfl := List.inj_on_of_nodup_map hnodup hr hq (hid.trans hqid.symm)
      exact .inr List.mem_cons_self
  · exact .inl ((hiff r).mpr ⟨hr, hid⟩)

/-! ## The books -/

/-- The thread has got so far that its record can be freed: it leaves or has left, detached, or it
was joined. -/
def Done (t : Life) : Prop :=
  (t.phase = .finished ∨ t.phase = .ended) ∧ t.record.detached = true ∨ t.phase = .removed

/-- The phases in which the record can be in the tree. -/
def Entered (t : Life) : Prop := t.phase ≠ .created ∧ t.phase ≠ .started ∧ t.phase ≠ .removed

/-- The record is where it should be: in the tree `R`, or among the freed ones `F`. -/
def Filed (t : Life) (R F : List thread_type) : Prop :=
  match t.phase with
  | .running => t.record ∈ R
  | .leaving th => th = some t.record ∧ t.record ∈ R
  | .finished | .ended => if t.record.detached then t.record ∈ F else t.record ∈ R
  | .joined => t.record ∈ R
  | _ => True

theorem Filed.mono {t : Life} {R R' F F' : List thread_type} (h : Filed t R F)
    (hR : t.record ∈ R → t.record ∈ R') (hF : t.record ∈ F → t.record ∈ F') : Filed t R' F' := by
  unfold Filed at h ⊢
  cases hphase : t.phase <;> rw [hphase] at h
  case running | joined => exact hR h
  case leaving => exact ⟨h.1, hR h.2⟩
  case finished | ended =>
    by_cases hd : t.record.detached = true
    · rw [if_pos hd] at h ⊢
      exact hF h
    · rw [if_neg hd] at h ⊢
      exact hR h
  all_goals trivial

/-- The thread may take this record out of the tree. -/
def MayFree (s : Library) (t : Life) (r : thread_type) : Prop :=
  r = t.record ∨ ∃ u, s.threads r.thread_id = some u ∧ u.record = r ∧ u.phase = .ended

/-- The books are right. They are complete when `clean` says that no thread was hidden behind
another one. -/
structure Kept (clean : Prop) (s : Library) (R F : List thread_type) : Prop where
  tree : Records s._threadtree R
  books : s.freed = F.map some
  ids : ∀ i t, s.threads i = some t → t.record.thread_id = i ∧ i < s._next_thread_id
  main : 0 < s._next_thread_id ∧ ∀ t, s.threads 0 = some t → t.phase ≠ .created ∧ t.phase ≠ .started
  recorded : ∀ r ∈ R, ∃ t, s.threads r.thread_id = some t ∧ t.record = r ∧ Entered t
  apart : ∀ i j t u, s.threads i = some t → s.threads j = some u → t.in_use = true →
    u.in_use = true → t.record.sys_thread = u.record.sys_thread → i = j
  leaving : ∀ i t r, s.threads i = some t → t.phase = .leaving (some r) → r.detached = true →
    MayFree s t r
  once : (F.map thread_type.thread_id).Nodup
  freed : ∀ r ∈ F, r ∉ R ∧ ∃ t, s.threads r.thread_id = some t ∧ t.record = r ∧ Done t
  joinable : ∀ i t, s.threads i = some t → t.phase = .joined → t.record.detached = false
  complete : clean → ∀ i t, s.threads i = some t → Filed t R F

variable {clean : Prop} {s : Library} {R R' F F' : List thread_type} {t : Life} {i : Nat}

/-- The step frees `freed`, and loses nothing. -/
def Goes (clean : Prop) (s : Library) (R F freed R' : List thread_type) : Prop :=
  Kept clean s R' (F ++ freed) ∧ ∀ r ∈ R, r ∈ R' ∨ r ∈ freed

theorem goes_none (h : Kept clean s R' F) (hsub : R ⊆ R') : Goes clean s R F [] R' :=
  ⟨(List.append_nil F).symm ▸ h, fun _ hr => .inl (hsub hr)⟩

theorem Kept.mem_self (h : Kept clean s R F) (ht : s.threads i = some t)
    {r : thread_type} (hr : r ∈ R) (hid : r.thread_id = i) : r = t.record ∧ Entered t := by
  obtain ⟨u, hu, rfl, hentered⟩ := h.recorded r hr
  rw [hid, ht] at hu
  cases hu
  exact ⟨rfl, hentered⟩

theorem Kept.books_append (h : Kept clean s R F) (freed : List thread_type) :
    s.freed ++ freed.map some = (F ++ freed).map some := by
  rw [h.books, List.map_append]

theorem Kept.freed_self (h : Kept clean s R F) (ht : s.threads i = some t)
    {r : thread_type} (hr : r ∈ F) (hid : r.thread_id = i) : r = t.record ∧ Done t := by
  obtain ⟨-, u, hu, rfl, hdone⟩ := h.freed r hr
  rw [hid, ht] at hu
  cases hu
  exact ⟨rfl, hdone⟩

theorem Kept.step {tree : avl_tree Key (BitVec 32)} {next : Nat} {freed : List Key} {t' : Life}
    (h : Kept clean s R F) (htree : Records tree R') (hbooks : freed = F'.map some)
    (hid : t'.record.thread_id = i) (hlt : i < next) (hnext : s._next_thread_id ≤ next)
    (hmain : i = 0 → t'.phase ≠ .created ∧ t'.phase ≠ .started)
    (hother : ∀ r ∈ R', r.thread_id ≠ i → r ∈ R)
    (hown : ∀ r ∈ R', r.thread_id = i → r = t'.record ∧ Entered t')
    (hapart : t'.in_use = true → ∀ j u, j ≠ i → s.threads j = some u → u.in_use = true →
      u.record.sys_thread ≠ t'.record.sys_thread)
    (hended : ∀ u, s.threads i = some u → u.phase = .ended → u.record.detached = false)
    (hleaving : ∀ r, t'.phase = .leaving (some r) → r.detached = true → r = t'.record ∨
      ∃ u, r.thread_id ≠ i ∧ s.threads r.thread_id = some u ∧ u.record = r ∧ u.phase = .ended)
    (honce : (F'.map thread_type.thread_id).Nodup)
    (hfreed : ∀ r ∈ F', r ∉ R' ∧ (r.thread_id = i → r = t'.record ∧ Done t') ∧
      (r.thread_id ≠ i → r ∈ F ∨
      ∃ u, s.threads r.thread_id = some u ∧ u.record = r ∧ Done u))
    (hjoinable : t'.phase = .joined → t'.record.detached = false)
    (hkeep : clean → (∀ r ∈ R, r.thread_id ≠ i → r ∈ R') ∧ F ⊆ F' ∧ Filed t' R' F') :
    Kept clean
      (Library.put { s with _next_thread_id := next, _threadtree := tree, freed := freed } t') R'
      F' := by
  rw [Library.put, hid]
  refine ⟨htree, hbooks,
    fun j u hu => put_ids h.ids hid hlt hnext hu, ⟨Nat.zero_lt_of_lt hlt, fun u hu => ?_⟩,
    fun r hr => put_thread (hown r hr) fun hri => h.recorded r (hother r hr hri),
    fun j k u v hu hv => put_apart h.apart hapart hu hv, fun j u r hu hl hd => ?_, honce,
      fun r hr => ?_,
    fun j u hu hp => ?_, fun hclean j u hu => ?_⟩
  · rcases put_cases hu with ⟨rfl, rfl⟩ | ⟨-, hu⟩
    · exact hmain rfl
    · exact h.main.2 u hu
  · rcases put_cases hu with ⟨rfl, rfl⟩ | ⟨-, hu⟩
    · refine (hleaving r hl hd).imp_right fun hu => ?_
      obtain ⟨v, hri, hv⟩ := hu
      exact put_thread (fun hri' => absurd hri' hri) fun _ => ⟨v, hv⟩
    · refine (h.leaving j u r hu hl hd).imp_right fun hv => ?_
      obtain ⟨v, hv, hvr, hphase⟩ := hv
      refine put_thread (fun hri => ?_) fun _ => ⟨v, hv, hvr, hphase⟩
      -- A detached thread that has ended takes no step.
      have hjoinable := hended v (hri ▸ hv) hphase
      rw [hvr, hd] at hjoinable
      cases hjoinable
  · obtain ⟨hout, hself, hothers⟩ := hfreed r hr
    exact ⟨hout, put_thread hself fun hri => (hothers hri).elim (fun hold => (h.freed r hold).2) id⟩
  · rcases put_cases hu with ⟨rfl, rfl⟩ | ⟨-, hu⟩
    · exact hjoinable hp
    · exact h.joinable j u hu hp
  · obtain ⟨hkeep, hsub, hfiled⟩ := hkeep hclean
    rcases put_cases hu with ⟨rfl, rfl⟩ | ⟨hji, hu⟩
    · exact hfiled
    · have hold := h.complete hclean j u hu
      have huid := (h.ids j u hu).1
      have hstay (hmem : u.record ∈ R) : u.record ∈ R' := hkeep _ hmem (huid.symm ▸ hji)
      exact hold.mono hstay fun hmem => hsub hmem

/-! ## Moves -/

theorem Kept.phase (h : Kept clean s R F) (ht : s.threads i = some t) {p : Phase}
    (hentered : Entered t → Entered { t with phase := p })
    (huse : Life.in_use { t with phase := p } = true → t.in_use = true)
    (hmain : p ≠ .created ∧ p ≠ .started) (hended : t.phase = .ended → t.record.detached = false)
    (hleaving : ∀ r, p = .leaving (some r) → r.detached = true → r = t.record ∨
      ∃ u, r.thread_id ≠ i ∧ s.threads r.thread_id = some u ∧ u.record = r ∧ u.phase = .ended)
    (hdone : Done t → Done { t with phase := p })
    (hjoinable : p = .joined → t.record.detached = false)
    (hfiled : clean → Filed { t with phase := p } R F) :
    Kept clean (s.put { t with phase := p }) R F := by
  obtain ⟨hid, hlt⟩ := h.ids i t ht
  refine h.step h.tree h.books hid hlt le_rfl (fun _ => hmain) (fun r hr _ => hr)
    (fun r hr hri => ?_) (fun hp j u hj hu huse' heq => ?_)
    (fun u hu hphase => ?_) hleaving h.once (fun r hr =>
      ⟨(h.freed r hr).1, fun hri => ?_, fun _ => .inl hr⟩) hjoinable
    fun hclean => ⟨fun r hr _ => hr, List.Subset.refl F, hfiled hclean⟩
  · obtain ⟨rfl, hold⟩ := h.mem_self ht hr hri
    exact ⟨rfl, hentered hold⟩
  · exact hj (h.apart j i u t hu ht huse' (huse hp) heq)
  · rw [ht] at hu
    cases hu
    exact hended hphase
  · obtain ⟨rfl, hold⟩ := h.freed_self ht hr hri
    exact ⟨rfl, hdone hold⟩

/-- Taking `r` out of the tree frees that record, or nothing. -/
structure Taken (R F : List thread_type) (r : thread_type) (tree : avl_tree Key (BitVec 32))
    (R' freed : List thread_type) : Prop where
  tree : Records tree R'
  left : ∀ q, q ∈ R' ↔ q ∈ R ∧ q.thread_id ≠ r.thread_id
  own : ∀ q ∈ freed, q = r
  present : r ∈ R → r ∈ freed
  gone : ∀ q ∈ R, q ∈ R' ∨ q ∈ freed
  once : ((F ++ freed).map thread_type.thread_id).Nodup
  out : ∀ q ∈ F ++ freed, q ∉ R'

theorem Kept.take (h : Kept clean s R F) {r : thread_type} {u : Life}
    (hu : s.threads r.thread_id = some u) (hur : u.record = r) :
    ∃ tree ret freed R', avl_delete s._threadtree (some r) (some fun _ => 1) =
      .ok (ret, tree, freed.map some) ∧
      Taken R F r tree R' freed := by
  obtain ⟨ret, tree, freed, R', hdel, htree, hiff, hcases⟩ := h.tree.take r
  have hgone := h.tree.taken hiff hcases
  have hown : ∀ q ∈ freed, q = r ∧ r ∈ R := by
    intro q hq
    rcases hcases with ⟨rfl, -⟩ | ⟨q', hq', rfl, hid⟩
    · cases hq
    · obtain rfl : q' = r := (h.mem_self hu hq' hid).1.trans hur
      exact ⟨List.mem_singleton.mp hq, hq'⟩
  refine ⟨tree, ret, freed, R', hdel, htree, hiff,
    fun q hq => (hown q hq).1, fun hr => ?_, hgone, ?_, fun q hq hq' => ?_⟩
  · exact (hgone r hr).resolve_left fun hr' => ((hiff r).mp hr').2 rfl
  · rw [List.map_append, List.nodup_append]
    refine ⟨h.once, ?_, ?_⟩
    · rcases hcases with ⟨rfl, -⟩ | ⟨q', -, rfl, -⟩ <;> simp
    · intro a ha b hb hab
      obtain ⟨q, hq, rfl⟩ := List.mem_map.mp ha
      obtain ⟨q', hq', rfl⟩ := List.mem_map.mp hb
      obtain ⟨rfl, hr⟩ := hown q' hq'
      obtain rfl : q = q' := (h.freed_self hu hq hab).1.trans hur
      exact (h.freed q hq).1 hr
  · obtain ⟨hold, hne⟩ := (hiff q).mp hq'
    rcases List.mem_append.mp hq with hq | hq
    · exact (h.freed q hq).1 hold
    · exact hne ((hown q hq).1 ▸ rfl)

theorem Kept.remove (h : Kept clean s R F) (ht : s.threads i = some t) {p : Phase}
    (hgoing : ¬ Done t) (hthere : t.phase ≠ .ended)
    (huse : Life.in_use { t with phase := p } = true → t.in_use = true)
    (hmain : p ≠ .created ∧ p ≠ .started) (hleaving : ∀ th, p ≠ .leaving th)
    (hdone : Done { t with phase := p }) (hjoined : p ≠ .joined)
    (hfiled : ∀ R' F', t.record ∈ F' → Filed { t with phase := p } R' F')
    (hmem : clean → t.record ∈ R) :
    ∃ tree ret freed R', avl_delete s._threadtree (some t.record) (some fun _ => 1) =
      .ok (ret, tree, freed.map some) ∧
      Goes clean
        (Library.put { s with _threadtree := tree, freed := s.freed ++ freed.map some }
          { t with phase := p })
        R F freed R' := by
  obtain ⟨hid, hlt⟩ := h.ids i t ht
  obtain ⟨tree, ret, freed, R', hdel, htaken⟩ := h.take (hid.symm ▸ ht) rfl
  refine ⟨tree, ret, freed, R', hdel, ?_, htaken.gone⟩
  refine h.step htaken.tree (h.books_append freed) hid hlt le_rfl (fun _ => hmain) (fun r hr _ =>
    ((htaken.left r).mp hr).1)
    (fun r hr hri => absurd (hri.trans hid.symm) ((htaken.left r).mp hr).2)
      (fun hp j u hj hu huse' heq => ?_)
    (fun u hu hphase => ?_) (fun r hr _ => absurd hr (hleaving _)) htaken.once
    (fun r hr => ⟨htaken.out r hr, fun hri => ?_, fun hri => ?_⟩) (fun hp => absurd hp hjoined)
    fun hclean => ⟨fun r hr hri => ?_, List.subset_append_left F freed, ?_⟩
  · exact hj (h.apart j i u t hu ht huse' (huse hp) heq)
  · rw [ht] at hu
    cases hu
    exact absurd hphase hthere
  · rcases List.mem_append.mp hr with hr | hr
    · exact absurd (h.freed_self ht hr hri).2 hgoing
    · exact ⟨htaken.own r hr, hdone⟩
  · rcases List.mem_append.mp hr with hr | hr
    · exact .inl hr
    · exact absurd (htaken.own r hr ▸ hid) hri
  · exact (htaken.left r).mpr ⟨hr, hid.symm ▸ hri⟩
  · exact hfiled R' (F ++ freed) (List.mem_append_right F (htaken.present (hmem hclean)))

/-- A thread that got the `pthread_t` of one that has ended takes out the record that this one has
left. -/
theorem Kept.remove_other (h : Kept clean s R F) (ht : s.threads i = some t) {r : thread_type}
    (hphase : t.phase = .leaving (some r)) (hd : r.detached = true) (hne : r ≠ t.record) :
    ∃ tree ret freed R', avl_delete s._threadtree (some r) (some fun _ => 1) =
      .ok (ret, tree, freed.map some) ∧
      Goes clean
        (Library.put { s with _threadtree := tree, freed := s.freed ++ freed.map some }
          { t with phase := .finished })
        R F freed R' := by
  obtain ⟨hid, hlt⟩ := h.ids i t ht
  obtain ⟨u, hu, hur, hended⟩ := (h.leaving i t r ht hphase hd).resolve_left hne
  obtain ⟨tree, ret, freed, R', hdel, htaken⟩ := h.take hu hur
  have hri : r.thread_id ≠ i := by
    intro hri
    rw [hri, ht] at hu
    cases hu
    exact hne hur.symm
  have hdone : Done u := .inl ⟨.inr hended, hur ▸ hd⟩
  have hgoing : ¬ Done t := by simp [Done, hphase]
  refine ⟨tree, ret, freed, R', hdel, ?_, htaken.gone⟩
  refine h.step htaken.tree (h.books_append freed) hid hlt le_rfl (fun _ => by simp) (fun q hq _ =>
    ((htaken.left q).mp hq).1) (fun q hq hqi => ?_)
    (fun _ j v hj hv huse heq => ?_) (fun v hv hphase' => ?_) (by simp) htaken.once
    (fun q hq => ⟨htaken.out q hq, fun hqi => ?_, fun _ => ?_⟩) (by simp) fun hclean => ?_
  · obtain ⟨rfl, -⟩ := h.mem_self ht ((htaken.left q).mp hq).1 hqi
    exact ⟨rfl, by simp [Entered]⟩
  · exact hj (h.apart j i v t hv ht huse (by simp [Life.in_use, hphase]) heq)
  · rw [ht] at hv
    cases hv
    simp [hphase] at hphase'
  · rcases List.mem_append.mp hq with hq | hq
    · exact absurd (h.freed_self ht hq hqi).2 hgoing
    · exact absurd (htaken.own q hq ▸ hqi) hri
  · rcases List.mem_append.mp hq with hq | hq
    · exact .inl hq
    · obtain rfl := htaken.own q hq
      exact .inr ⟨u, hu, hur, hdone⟩
  · -- Nobody leaves so when no thread was hidden.
    have hfiled := h.complete hclean i t ht
    unfold Filed at hfiled
    rw [hphase] at hfiled
    exact absurd (Option.some.inj hfiled.1) hne

theorem create_kept (h : Kept clean s R F) (detached : Bool) :
    Kept clean (thread_create_c s detached) R F := by
  have hfree (r : thread_type) {P : Life → Prop}
    (hr : ∃ t, s.threads r.thread_id = some t ∧ t.record = r ∧ P t) :
      r.thread_id ≠ s._next_thread_id := by
    obtain ⟨u, hu, -⟩ := hr
    exact (h.ids _ u hu).2.ne
  have hpos := h.main.1
  exact h.step h.tree h.books rfl (Nat.lt_succ_self _) (Nat.le_succ _) (fun hi =>
    absurd hi hpos.ne') (fun r hr _ => hr)
    (fun r hr hri => absurd hri (hfree r (h.recorded r hr))) (by simp [Life.in_use])
    (fun u hu _ => absurd (h.ids _ u hu).2 (lt_irrefl _)) (by simp) h.once
    (fun r hr =>
      ⟨(h.freed r hr).1, fun hri => absurd hri (hfree r (h.freed r hr).2), fun _ => .inl hr⟩)
      (by simp)
    fun _ => ⟨fun r hr _ => hr, List.Subset.refl F, trivial⟩

theorem pthread_create_kept (h : Kept clean s R F) (ht : s.threads i = some t)
    (hphase : t.phase = .created) (sys_thread : Option pthread_t) :
    Kept clean (pthread_create s t sys_thread) R F := by
  obtain ⟨hid, hlt⟩ := h.ids i t ht
  have hout : ¬ Entered t := by simp [Entered, hphase]
  have hgoing : ¬ Done t := by simp [Done, hphase]
  cases sys_thread with
  | none =>
    exact h.phase ht (fun hin => absurd hin hout) (by simp [Life.in_use]) (by simp)
      (by simp [hphase]) (by simp)
      (fun hdone => absurd hdone hgoing) (by simp) fun _ => trivial
  | some sys_thread =>
    unfold pthread_create
    dsimp only
    split_ifs with htaken
    · exact h
    · refine h.step h.tree h.books hid hlt le_rfl (fun hi => ?_) (fun r hr _ => hr)
        (fun r hr hri => ?_) (fun _ j u _ hu huse => ?_)
        (fun u hu hphase' => ?_) (by simp) h.once (fun r hr =>
          ⟨(h.freed r hr).1, fun hri => ?_, fun _ => .inl hr⟩) (by simp)
        fun _ => ⟨fun r hr _ => hr, List.Subset.refl F, trivial⟩
      · subst hi
        exact absurd hphase (h.main.2 t ht).1
      · exact absurd (h.mem_self ht hr hri).2 hout
      · exact not_taken htaken (h.ids j u hu).2 hu huse
      · rw [ht] at hu
        cases hu
        simp [hphase] at hphase'
      · exact absurd (h.freed_self ht hr hri).2 hgoing

theorem start_routine_kept (h : Kept clean s R F) (ht : s.threads i = some t)
    (hphase : t.phase = .started) (reply : Option Nat) (hreply : clean → reply ≠ none) :
    ∃ s' R', start_routine s t reply = .ok s' ∧ Kept clean s' R' F ∧ R ⊆ R' := by
  obtain ⟨hid, hlt⟩ := h.ids i t ht
  have hgoing : ¬ Done t := by simp [Done, hphase]
  have hout : ∀ r ∈ R, r.thread_id ≠ i := by
    intro r hr hri
    have hin := (h.mem_self ht hr hri).2
    simp [Entered, hphase] at hin
  -- The record is put into the tree, if there is memory for its node.
  obtain ⟨ret, tree, R', hins, htree, hmem, hsub, hclean⟩ : ∃ ret tree R',
      avl_insert (answered s._threadtree reply) (some t.record) = .ok (ret, tree) ∧
      Records tree R' ∧
      (∀ r ∈ R', r = t.record ∨ r ∈ R) ∧ R ⊆ R' ∧ (clean → t.record ∈ R') := by
    cases reply with
    | none =>
      obtain ⟨tree, hins, htree⟩ := h.tree.refuse (some t.record)
      exact ⟨_, tree, R, hins, htree, fun r hr => .inr hr, List.Subset.refl R,
        fun hclean => absurd rfl (hreply hclean)⟩
    | some wish =>
      obtain ⟨tree, R', hins, htree, hmem⟩ := h.tree.insert t.record (hid.symm ▸ hout) wish
      exact ⟨_, tree, R', hins, htree, fun r hr => (hmem r).mp hr,
        fun r hr => (hmem r).mpr (.inr hr),
        fun _ => (hmem _).mpr (.inl rfl)⟩
  refine ⟨_, R', run_bind hins rfl, ?_, hsub⟩
  refine h.step htree h.books hid hlt le_rfl (fun _ => by simp) (fun r hr hri => ?_)
    (fun r hr hri => ?_)
    (fun _ j u hj hu huse heq => ?_) (fun u hu hphase' => ?_) (by simp) h.once
    (fun r hr => ⟨fun hr' => ?_, fun hri => ?_, fun _ => .inl hr⟩) (by simp)
    fun hc => ⟨fun r hr _ => hsub hr, List.Subset.refl F, hclean hc⟩
  · refine (hmem r hr).resolve_left ?_
    rintro rfl
    exact hri hid
  · rcases hmem r hr with rfl | hold
    · exact ⟨rfl, by simp [Entered]⟩
    · exact absurd hri (hout r hold)
  · exact hj (h.apart j i u t hu ht huse (by simp [Life.in_use, hphase]) heq)
  · rw [ht] at hu
    cases hu
    simp [hphase] at hphase'
  · rcases hmem r hr' with rfl | hold
    · exact hgoing (h.freed_self ht hr hid).2
    · exact (h.freed r hr).1 hold
  · exact absurd (h.freed_self ht hr hri).2 hgoing

theorem exit_kept (h : Kept clean s R F) (ht : s.threads i = some t) (hphase : t.phase = .running)
    (hinv : clean → ∃ R, Inv s R) :
    ∃ th, thread_self s._threadtree t.record.sys_thread = .ok th ∧
      Kept clean (s.put { t with phase := .leaving th }) R F := by
  have huse : t.in_use = true := by simp [Life.in_use, hphase]
  have hgoing : ¬ Done t := by simp [Done, hphase]
  refine ⟨_, h.tree.self _,
    h.phase ht (fun _ => by simp [Entered]) (fun _ => huse) (by simp) (by simp [hphase])
      (fun r hr hd => ?_) (fun hdone => absurd hdone hgoing) (by simp) fun hclean => ?_⟩
  · have hfind := Phase.leaving.inj hr
    have hsame : r.sys_thread = t.record.sys_thread := by simpa using List.find?_some hfind
    obtain ⟨u, hu, rfl, hin⟩ := h.recorded r (List.mem_of_find?_eq_some hfind)
    by_cases huse' : u.in_use = true
    · have hui := h.apart _ i u t hu ht huse' huse hsame
      rw [hui, ht] at hu
      cases hu
      exact .inl rfl
    · have hended : u.phase = .ended := by
        have hjoined := h.joinable _ u hu
        unfold Life.in_use at huse'
        unfold Entered at hin
        cases hp : u.phase <;> simp [hp] at huse' hin
        · rfl
        · rw [hjoined hp] at hd
          cases hd
      refine .inr ⟨u, fun hui => ?_, hu, rfl, hended⟩
      rw [hui, ht] at hu
      cases hu
      simp [hphase] at hended
  · obtain ⟨R1, h1⟩ := hinv hclean
    obtain rfl := h1.tree.unique h.tree
    have hmem : t.record ∈ R1 := by
      have hfiled := h.complete hclean i t ht
      unfold Filed at hfiled
      rwa [hphase] at hfiled
    obtain ⟨th, hself, -, hfound⟩ := exit_leaves h1 ht hphase
    rw [h.tree.self] at hself
    exact ⟨(Except.ok.inj hself).trans (hfound hmem), hmem⟩

theorem Kept.load (h : Kept clean s R F) {r : thread_type} (hr : r ∉ F) : s.load r = .ok r := by
  unfold Library.load
  rw [h.books, if_neg (by simpa using hr)]
  rfl

theorem Kept.own_load (h : Kept clean s R F) (ht : s.threads i = some t) (hgoing : ¬ Done t) :
    s.load t.record = .ok t.record :=
  h.load fun hr => hgoing (h.freed_self ht hr (h.ids i t ht).1).2

/-- A thread leaves with a record that was freed. -/
def Stale (s : Library) : Action → Prop
  | .move thread_id .leave =>
    ∃ t r, s.threads thread_id = some t ∧ t.phase = .leaving (some r) ∧ some r ∈ s.freed
  | _ => False

theorem step_move (ht : s.threads i = some t) {p : Phase} (hphase : t.phase = p) (move : Move) :
    step s (.move i move) = s.move t p move := by
  unfold step
  simp only [ht, hphase]

/-- It reads `th->detached` from memory that was given back. -/
theorem stale_faults {a : Action} (ha : Stale s a) : step s a = .error .dangling := by
  cases a with
  | thread_create_c => exact ha.elim
  | move i move =>
    cases move with
    | leave =>
      obtain ⟨t, r, ht, hphase, hr⟩ := ha
      rw [step_move ht hphase, Library.move, leave_some, Library.load, if_pos hr]
      rfl
    | _ => exact ha.elim

theorem Kept.not_stale (h : Kept clean s R F) (hclean : clean) (a : Action) : ¬ Stale s a := by
  cases a with
  | thread_create_c => exact not_false
  | move i move =>
    cases move with
    | leave =>
      rintro ⟨t, r, ht, hphase, hr⟩
      have hfiled := h.complete hclean i t ht
      unfold Filed at hfiled
      rw [hphase] at hfiled
      rw [h.books, hfiled.1, List.mem_map_of_injective (Option.some_injective _)] at hr
      exact (h.freed _ hr).1 hfiled.2
    | _ => exact not_false

theorem leave_kept (h : Kept clean s R F) (ht : s.threads i = some t) {th : Key}
    (hphase : t.phase = .leaving th) (hfresh : ¬ Stale s (.move i .leave)) :
    ∃ s' freed R', leave s t th = .ok s' ∧ Goes clean s' R F freed R' := by
  have huse : t.in_use = true := by simp [Life.in_use, hphase]
  have hgoing : ¬ Done t := by simp [Done, hphase]
  have hfiled : clean → th = some t.record ∧ t.record ∈ R := by
    intro hclean
    have hfiled := h.complete hclean i t ht
    unfold Filed at hfiled
    rwa [hphase] at hfiled
  have hstay (hd : clean → t.record.detached = false) :
      Goes clean (s.put { t with phase := .finished }) R F [] R := by
    refine goes_none ?_ fun r hr => hr
    refine h.phase ht (fun _ => by simp [Entered]) (fun _ => huse) (by simp)
      (by simp [hphase]) (by simp)
      (fun hdone => absurd hdone hgoing) (by simp) fun hclean => ?_
    unfold Filed
    simpa [hd hclean] using (hfiled hclean).2
  cases th with
  | none => exact ⟨_, [], R, rfl, hstay fun hclean => absurd (hfiled hclean).1 (by simp)⟩
  | some r =>
    have hload : s.load r = .ok r := if_neg fun hr => hfresh ⟨t, r, ht, hphase, hr⟩
    rw [leave_some, hload, ok_bind]
    by_cases hd : r.detached = true
    · rw [if_pos hd]
      have htake : ∃ tree ret freed R',
        avl_delete s._threadtree (some r) (some fun _ => 1) = .ok (ret, tree, freed.map some) ∧
          Goes clean (Library.put { s with _threadtree := tree, freed := s.freed ++ freed.map some }
            { t with phase := .finished }) R F freed R' := by
        by_cases hown : r = t.record
        · subst hown
          exact h.remove ht hgoing (by simp [hphase]) (fun _ => huse) (by simp) (by simp)
            (.inl ⟨.inl rfl, hd⟩) (by simp)
            (fun R' F' hmem => by simpa [Filed, hd] using hmem) fun hclean => (hfiled hclean).2
        · exact h.remove_other ht hphase hd hown
      obtain ⟨tree, ret, freed, R', hdel, hkept⟩ := htake
      exact ⟨_, freed, R', run_bind (run_bind hdel rfl) rfl, hkept⟩
    · rw [if_neg hd]
      refine ⟨_, [], R, rfl, hstay fun hclean => ?_⟩
      rw [← Option.some.inj (hfiled hclean).1]
      simpa using hd

theorem join_kept (h : Kept clean s R F) (ht : s.threads i = some t) (hphase : t.phase = .joined) :
    ∃ s' freed R', thread_join s t = .ok s' ∧ Goes clean s' R F freed R' := by
  have hgoing : ¬ Done t := by simp [Done, hphase]
  obtain ⟨tree, ret, freed, R', hdel, hkept⟩ :=
    h.remove (p := .removed) ht hgoing (by simp [hphase]) (by simp [Life.in_use])
      (by simp) (by simp) (.inr rfl) (by simp) (fun _ _ _ => trivial) fun hclean => by
        have hfiled := h.complete hclean i t ht
        unfold Filed at hfiled
        rwa [hphase] at hfiled
  exact ⟨_, freed, R', run_bind (h.own_load ht hgoing) (run_bind (run_bind hdel rfl) rfl), hkept⟩

theorem move_kept {s' : Library} (ht : s.threads i = some t) {p : Phase} (hphase : t.phase = p)
    {move : Move} (hmove : s.move t p move = .ok s') (hkept : Kept clean s' R' F) (hsub : R ⊆ R') :
    ∃ s' freed R', step s (.move i move) = .ok s' ∧ Goes clean s' R F freed R' :=
  ⟨s', [], R', (step_move ht hphase move).trans hmove, goes_none hkept hsub⟩

theorem returns_kept (h : Kept clean s R F) (ht : s.threads i = some t)
    (hphase : t.phase = .running) :
    ∃ s', s.move t .running .returns = .ok s' ∧ Kept clean s' R F := by
  unfold Library.move
  by_cases hi : t.record.thread_id = 0
  · rw [if_pos hi]
    exact ⟨s, rfl, h⟩
  · rw [if_neg hi]
    refine ⟨_, rfl,
      h.phase ht (fun _ => by simp [Entered]) (fun _ => ?_) (by simp) (by simp [hphase]) ?_ ?_
        (by simp) fun hc => ?_⟩
    · simp [Life.in_use, hphase]
    · rintro r hr -
      exact .inl (Option.some.inj (Phase.leaving.inj hr)).symm
    · simp [Done, hphase]
    · have hfiled := h.complete hc i t ht
      unfold Filed at hfiled ⊢
      rw [hphase] at hfiled
      exact ⟨rfl, hfiled⟩

theorem ends_kept (h : Kept clean s R F) (ht : s.threads i = some t)
    (hphase : t.phase = .finished) :
    Kept clean (s.put { t with phase := .ended }) R F := by
  refine h.phase ht (fun _ => by simp [Entered]) (fun _ => ?_) (by simp) (by simp [hphase])
    (by simp) ?_ (by simp) fun hc => ?_
  · simp [Life.in_use, hphase]
  · simp [Done, hphase]
  · have hfiled := h.complete hc i t ht
    unfold Filed at hfiled ⊢
    rwa [hphase] at hfiled

theorem pthread_join_kept (h : Kept clean s R F) (ht : s.threads i = some t)
    (hphase : t.phase = .ended) :
    ∃ s', s.move t .ended .pthread_join = .ok s' ∧ Kept clean s' R F := by
  unfold Library.move
  by_cases hd : t.record.detached = true
  · rw [if_pos hd]
    exact ⟨s, rfl, h⟩
  · rw [if_neg hd]
    have hjoinable : t.record.detached = false := by simpa using hd
    have hgoing : ¬ Done t := by simp [Done, hphase, hjoinable]
    refine ⟨_, run_bind (h.own_load ht hgoing) rfl,
      h.phase ht (fun _ => by simp [Entered]) (by simp [Life.in_use]) (by simp)
        (fun _ => hjoinable) (by simp) (fun hdone => absurd hdone hgoing) (fun _ => hjoinable)
        fun hc => ?_⟩
    have hfiled := h.complete hc i t ht
    unfold Filed at hfiled ⊢
    simpa [hphase, hjoinable] using hfiled

theorem step_kept (h : Kept clean s R F) {a : Action}
    (hclean : clean → (∃ R, Inv s R) ∧ ¬ Hidden s a) (hfresh : ¬ Stale s a) :
    ∃ s' freed R', step s a = .ok s' ∧ Goes clean s' R F freed R' := by
  cases a with
  | thread_create_c detached =>
    exact ⟨_, [], R, rfl, goes_none (create_kept h detached) fun r hr => hr⟩
  | move i move =>
    cases ht : s.threads i with
    | none =>
      refine ⟨s, [], R, ?_, goes_none h fun r hr => hr⟩
      simp only [step, ht]
      rfl
    | some t =>
      have hsame : R ⊆ R := List.Subset.refl R
      cases hphase : t.phase <;> cases move <;> try exact move_kept ht hphase rfl h hsame
      case created.pthread_create sys_thread =>
        exact move_kept ht hphase rfl (pthread_create_kept h ht hphase sys_thread) hsame
      case started.start_routine reply =>
        obtain ⟨s', R', hrun, hkept, hsub⟩ := start_routine_kept h ht hphase reply fun hc hreply =>
          (hclean hc).2 ⟨t, ht, hphase, .inl hreply⟩
        exact move_kept ht hphase hrun hkept hsub
      case running.returns =>
        obtain ⟨s', hrun, hkept⟩ := returns_kept h ht hphase
        exact move_kept ht hphase hrun hkept hsame
      case running.thread_exit_c =>
        obtain ⟨th, hself, hkept⟩ := exit_kept h ht hphase fun hc => (hclean hc).1
        exact move_kept ht hphase (run_bind hself rfl) hkept hsame
      case leaving.leave th =>
        obtain ⟨s', freed, R', hrun, hkept⟩ := leave_kept h ht hphase hfresh
        exact ⟨s', freed, R', (step_move ht hphase _).trans hrun, hkept⟩
      case finished.exit => exact move_kept ht hphase rfl (ends_kept h ht hphase) hsame
      case ended.pthread_join =>
        obtain ⟨s', hrun, hkept⟩ := pthread_join_kept h ht hphase
        exact move_kept ht hphase hrun hkept hsame
      case joined.thread_join =>
        obtain ⟨s', freed, R', hrun, hkept⟩ := join_kept h ht hphase
        exact ⟨s', freed, R', (step_move ht hphase _).trans hrun, hkept⟩

/-! ## Runs -/

/-- No thread of the run starts without a record, or behind another one that has its `pthread_t`. -/
def Clean (s0 : Library) (actions : List Action) : Prop :=
  ∀ pre a post s, actions = pre ++ a :: post → pre.foldlM step s0 = .ok s → ¬ Hidden s a

/-- No thread of the run leaves with a record that was freed. -/
def NeverStale (s0 : Library) (actions : List Action) : Prop :=
  ∀ pre a post s, actions = pre ++ a :: post → pre.foldlM step s0 = .ok s → ¬ Stale s a

/-- How far the run has got. -/
structure Reached (clean : Prop) (s0 : Library) (pre : List Action) (s : Library)
    (R F : List thread_type) : Prop where
  run : pre.foldlM step s0 = .ok s
  kept : Kept clean s R F
  inv : clean → ∃ R, Inv s R

theorem Reached.step {s0 : Library} {pre : List Action}
    (h : Reached clean s0 pre s R F) {a : Action} (ha : clean → ¬ Hidden s a)
    (hfresh : ¬ Stale s a) :
    ∃ s' freed R', Reached clean s0 (pre ++ [a]) s' R' (F ++ freed) ∧ ∀ r ∈ R, r ∈ R' ∨
      r ∈ freed := by
  obtain ⟨s', freed, R', hstep, hkept, hgone⟩ :=
    step_kept h.kept (fun hc => ⟨h.inv hc, ha hc⟩) hfresh
  refine ⟨s', freed, R', ⟨?_, hkept, fun hc => ?_⟩, hgone⟩
  · rw [List.foldlM_append, h.run, ok_bind, List.foldlM_cons, hstep]
    rfl
  · obtain ⟨R1, h1⟩ := h.inv hc
    exact step_inv h1 (ha hc) s' hstep

theorem Reached.later {s0 : Library} {pre : List Action} (h : Reached clean s0 pre s R F)
    (mid post : List Action) (hclean : clean → Clean s0 (pre ++ mid ++ post))
    (hfresh : clean ∨ NeverStale s0 (pre ++ mid ++ post)) :
    ∃ s' R' F', Reached clean s0 (pre ++ mid) s' R' F' ∧ ∀ r, r ∈ R ∨ r ∈ F → r ∈ R' ∨ r ∈ F' := by
  induction mid generalizing pre s R F with
  | nil => exact ⟨s, R, F, (List.append_nil pre).symm ▸ h, fun _ => id⟩
  | cons a mid ih =>
    have hsplit : pre ++ a :: mid = pre ++ [a] ++ mid := (List.append_cons ..)
    rw [hsplit] at hclean hfresh ⊢
    have hgoes : ¬ Stale s a := by
      rcases hfresh with hc | hnever
      · exact h.kept.not_stale hc a
      · exact hnever pre a (mid ++ post) s (by simp) h.run
    obtain ⟨s1, freed, R1, h1, hgone⟩ :=
      h.step (fun hc => hclean hc pre a (mid ++ post) s (by simp) h.run) hgoes
    obtain ⟨s', R', F', h', hlater⟩ := ih h1 hclean hfresh
    refine ⟨s', R', F', h', fun r hr => hlater r ?_⟩
    rcases hr with hr | hr
    · exact (hgone r hr).imp_right fun hr => List.mem_append_right F hr
    · exact .inr (List.mem_append_left freed hr)

theorem Reached.twice {s0 : Library} (h : Reached False s0 [] s0 R []) (pre post : List Action)
    (hnever : NeverStale s0 (pre ++ post)) :
    ∃ s R F s' R' F', Reached False s0 pre s R F ∧ Reached False s0 (pre ++ post) s' R' F' ∧
      ∀ r, r ∈ R ∨ r ∈ F → r ∈ R' ∨ r ∈ F' := by
  obtain ⟨s, R, F, hpre, -⟩ := h.later pre post False.elim (.inr hnever)
  rw [List.nil_append] at hpre
  obtain ⟨s', R', F', hpost, hlater⟩ :=
    hpre.later post [] False.elim (.inr ((List.append_nil (pre ++ post)).symm ▸ hnever))
  exact ⟨s, R, F, s', R', F', hpre, hpost, hlater⟩

/-- A run that gets through has no such step. -/
theorem never_stale {s0 s' : Library} {actions : List Action}
    (hrun : actions.foldlM step s0 = .ok s') :
    NeverStale s0 actions := by
  rintro pre a post s rfl hpre ha
  rw [List.foldlM_append, hpre, ok_bind, List.foldlM_cons, stale_faults ha] at hrun
  cases hrun

theorem initialize_main {m : Memory (avl_node Key (BitVec 32))} {reply : Option Nat}
    {sys_thread : pthread_t} {detached : Bool} {s0 : Library}
    (hinit : thread_initialize m reply sys_thread detached = .ok s0) :
    (∀ i t, s0.threads i = some t → t = ⟨⟨0, sys_thread, detached⟩, .running⟩) ∧
      (reply ≠ none → ∃ R, Records s0._threadtree R ∧ ⟨0, sys_thread, detached⟩ ∈ R) := by
  have hmain (i : Nat) (t : Life)
      (ht : Function.update (fun _ => none) 0 (some ⟨⟨0, sys_thread, detached⟩, .running⟩) i =
        some t) :
      t = ⟨⟨0, sys_thread, detached⟩, .running⟩ := by
    by_cases hi : i = 0
    · subst hi
      rw [Function.update_self] at ht
      exact (Option.some.inj ht).symm
    · rw [Function.update_of_ne hi] at ht
      cases ht
  unfold thread_initialize at hinit
  cases hnew : avl_tree_new _compare_threads m with
  | none =>
    rw [hnew] at hinit
    cases hinit
  | some tree =>
    rw [hnew] at hinit
    obtain ⟨r, hins, hs0⟩ := bind_eq_ok.mp hinit
    cases hs0
    refine ⟨hmain, fun hreply => ?_⟩
    obtain ⟨wish, rfl⟩ := Option.ne_none_iff_exists'.mp hreply
    obtain ⟨tree', R, hins', htree, hmem⟩ :=
      (new_records hnew).insert ⟨0, sys_thread, detached⟩ (by simp) wish
    cases hins'.symm.trans hins
    exact ⟨R, htree, (hmem _).mpr (.inl rfl)⟩

theorem initialize_freed {m : Memory (avl_node Key (BitVec 32))} {reply : Option Nat}
    {sys_thread : pthread_t} {detached : Bool} {s0 : Library}
    (hinit : thread_initialize m reply sys_thread detached = .ok s0) : s0.freed = [] := by
  unfold thread_initialize at hinit
  cases hnew : avl_tree_new _compare_threads m with
  | none =>
    rw [hnew] at hinit
    cases hinit
  | some tree =>
    rw [hnew] at hinit
    obtain ⟨r, -, hs0⟩ := bind_eq_ok.mp hinit
    cases hs0
    rfl

theorem initialize_reached {m : Memory (avl_node Key (BitVec 32))} {reply : Option Nat}
    {sys_thread : pthread_t} {detached : Bool} {s0 : Library}
    (hinit : thread_initialize m reply sys_thread detached = .ok s0)
    (hreply : clean → reply ≠ none) : ∃ R, Reached clean s0 [] s0 R [] := by
  obtain ⟨R, h⟩ := initialize_inv hinit
  obtain ⟨hmain, hmem⟩ := initialize_main hinit
  refine ⟨R, rfl,
    ⟨h.tree, initialize_freed hinit, h.ids, h.main, fun r hr => ?_, h.apart,
    fun i t r ht hl _ => ?_, List.nodup_nil, by simp,
    fun i t ht hp => ?_, fun hc i t ht => ?_⟩, fun _ => ⟨R, h⟩⟩
  · obtain ⟨t, ht, htr, -⟩ := h.recorded r hr
    refine ⟨t, ht, htr, ?_⟩
    rw [hmain _ t ht]
    simp [Entered]
  · rw [hmain i t ht] at hl
    cases hl
  · rw [hmain i t ht] at hp
    cases hp
  · obtain ⟨R1, htree, hin⟩ := hmem (hreply hc)
    obtain rfl := htree.unique h.tree
    rw [hmain i t ht]
    exact hin

/-- **Freed once.** Under every schedule and whichever insertions fail, a run gets through unless a
thread leaves with a record that was freed. In every run that gets through a record is freed at most
once, out of the tree, and only when its thread has left, detached, or was joined; and what was in
the tree is in it or was freed. When no thread starts without its record or hidden behind another
one, the run gets through and every record is in the tree until it is time. -/
theorem records_freed_once {m : Memory (avl_node Key (BitVec 32))} {reply : Option Nat}
    {sys_thread : pthread_t} {detached : Bool} {s0 : Library}
    (hinit : thread_initialize m reply sys_thread detached = .ok s0)
    (pre post : List Action) :
    ((∃ s', (pre ++ post).foldlM step s0 = .ok s') ↔ NeverStale s0 (pre ++ post)) ∧
    (∀ s', (pre ++ post).foldlM step s0 = .ok s' → ∃ (s : Library) (R F R' F' : List thread_type),
      pre.foldlM step s0 = .ok s ∧ Records s._threadtree R ∧ s.freed = F.map some ∧
      Records s'._threadtree R' ∧ s'.freed = F'.map some ∧ (F'.map thread_type.thread_id).Nodup ∧
      (∀ r ∈ F', r ∉ R' ∧ ∃ t, s'.threads r.thread_id = some t ∧ t.record = r ∧ Done t) ∧
      ∀ r, r ∈ R ∨ r ∈ F → r ∈ R' ∨ r ∈ F') ∧
    (reply ≠ none → Clean s0 (pre ++ post) → ∃ s' R' F', (pre ++ post).foldlM step s0 = .ok s' ∧
      Records s'._threadtree R' ∧ s'.freed = F'.map some ∧ ∀ i t, s'.threads i = some t →
      Filed t R' F') := by
  obtain ⟨R0, h0⟩ : ∃ R, Reached False s0 [] s0 R [] := initialize_reached hinit False.elim
  refine ⟨⟨fun hrun => ?_, fun hnever => ?_⟩, fun s' hrun => ?_, fun hreply hc => ?_⟩
  · obtain ⟨s', hrun⟩ := hrun
    exact never_stale hrun
  · obtain ⟨_, _, _, s', _, _, -, h', -⟩ := h0.twice pre post hnever
    exact ⟨s', h'.run⟩
  · obtain ⟨s, R, F, s1, R', F', h, h', hlater⟩ := h0.twice pre post (never_stale hrun)
    obtain rfl : s' = s1 := Except.ok.inj (hrun.symm.trans h'.run)
    exact ⟨s, R, F, R', F', h.run, h.kept.tree, h.kept.books, h'.kept.tree, h'.kept.books,
      h'.kept.once, h'.kept.freed, hlater⟩
  · obtain ⟨R1, h1⟩ : ∃ R, Reached True s0 [] s0 R [] := initialize_reached hinit fun _ => hreply
    obtain ⟨s', R', F', h', -⟩ :=
      h1.later (pre ++ post) [] (fun _ => by simpa using hc) (.inl trivial)
    exact ⟨s', R', F', h'.run, h'.kept.tree, h'.kept.books, h'.kept.complete trivial⟩

theorem records_freed_once_fresh :
    ∃ s0, thread_initialize (fresh Key (BitVec 32)) (some 2) 5 false = .ok s0 ∧
    ∀ pre post : List Action, ((∃ s', (pre ++ post).foldlM step s0 = .ok s') ↔
      NeverStale s0 (pre ++ post)) ∧
    (∀ s', (pre ++ post).foldlM step s0 = .ok s' → ∃ (s : Library) (R F R' F' : List thread_type),
      pre.foldlM step s0 = .ok s ∧ Records s._threadtree R ∧ s.freed = F.map some ∧
      Records s'._threadtree R' ∧ s'.freed = F'.map some ∧ (F'.map thread_type.thread_id).Nodup ∧
      (∀ r ∈ F', r ∉ R' ∧ ∃ t, s'.threads r.thread_id = some t ∧ t.record = r ∧ Done t) ∧
      ∀ r, r ∈ R ∨ r ∈ F → r ∈ R' ∨ r ∈ F') ∧
    ((some 2 : Option Nat) ≠ none → Clean s0 (pre ++ post) →
      ∃ s' R' F', (pre ++ post).foldlM step s0 = .ok s' ∧
      Records s'._threadtree R' ∧ s'.freed = F'.map some ∧ ∀ i t, s'.threads i = some t →
      Filed t R' F') := by
  obtain ⟨s0, hinit⟩ : ∃ s0, thread_initialize (fresh Key (BitVec 32)) (some 2) 5 false = .ok s0 :=
    ⟨_, rfl⟩
  exact ⟨s0, hinit, records_freed_once hinit⟩

/-- Thread 2 has the `pthread_t` of the joined thread 1, and gets its record before `thread_join`
frees it. -/
example : ∃ s0, thread_initialize (fresh Key (BitVec 32)) (some 2) 5 false = .ok s0 ∧
    [.thread_create_c false, .move 1 (.pthread_create (some 7)), .move 1 (.start_routine (some 3)),
      .move 1 .returns,
      .move 1 .leave, .move 1 .exit, .move 1 .pthread_join,
      .thread_create_c false, .move 2 (.pthread_create (some 7)), .move 2 (.start_routine (some 4)),
      .move 2 .thread_exit_c, .move 1 .thread_join, .move 2 .leave].foldlM step s0 =
      .error .dangling :=
  ⟨_, rfl, rfl⟩

end Thread
