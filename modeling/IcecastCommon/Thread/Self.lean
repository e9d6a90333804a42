import IcecastCommon.Thread.Tree

/-!
# Whose record `thread_self` finds

A record may stay in the tree for a while after its thread was joined, and its `pthread_t` may be
given to another thread before it is taken out. What holds of all threads under any schedule.
-/

namespace Thread

open Lib Avl

/-- The caller of `thread_self` gets its own record. -/
def OwnRecords (s : Library) : Prop :=
  ∀ i t, s.threads i = some t → i ≠ 0 → t.phase = .running →
    thread_self s._threadtree t.record.sys_thread = .ok (some t.record)

/-- A thread starts without a record, or behind a record with the same `pthread_t`. -/
def Hidden (s : Library) : Action → Prop
  | .move thread_id (.start_routine reply) =>
    ∃ t, s.threads thread_id = some t ∧ t.phase = .started ∧
      (reply = none ∨ ∃ R, Records s._threadtree R ∧ ∃ r ∈ R, r.sys_thread = t.record.sys_thread ∧
        r.thread_id < thread_id)
  | _ => False

/-! ## The invariant -/

/-- The record may be in the tree. -/
def Life.recorded (t : Life) : Prop :=
  match t.phase with
  | .running | .leaving _ => True
  | .finished | .ended | .joined => t.record.detached = false
  | _ => False

/-- What a thread that leaves knows: its own record, if that is in the tree. -/
def Leaves (t : Life) (R : List thread_type) (th : Key) : Prop :=
  (∀ r, th = some r → r = t.record ∨ r.detached = false) ∧ (t.record ∈ R → th = some t.record)

structure Inv (s : Library) (R : List thread_type) : Prop where
  tree : Records s._threadtree R
  ids : ∀ i t, s.threads i = some t → t.record.thread_id = i ∧ i < s._next_thread_id
  main : 0 < s._next_thread_id ∧ ∀ t, s.threads 0 = some t → t.phase ≠ .created ∧ t.phase ≠ .started
  recorded : ∀ r ∈ R, ∃ t, s.threads r.thread_id = some t ∧ t.record = r ∧ t.recorded
  apart : ∀ i j t u, s.threads i = some t → s.threads j = some u → t.in_use = true →
    u.in_use = true → t.record.sys_thread = u.record.sys_thread → i = j
  running : ∀ i t, s.threads i = some t → i ≠ 0 → t.phase = .running →
    t.record ∈ R ∧ ∀ r ∈ R, r.sys_thread = t.record.sys_thread → i ≤ r.thread_id
  leaving : ∀ i t th, s.threads i = some t → t.phase = .leaving th → Leaves t R th

variable {s : Library} {R R' : List thread_type} {t : Life} {i : Nat}

theorem Inv.own_records (h : Inv s R) : OwnRecords s := by
  intro i t ht hi hrun
  obtain ⟨hmem, hleast⟩ := h.running i t ht hi hrun
  obtain ⟨hid, -⟩ := h.ids i t ht
  exact h.tree.self_own hmem (hid.symm ▸ hleast)

theorem Inv.mem_self (h : Inv s R) (ht : s.threads i = some t) {r : thread_type} (hr : r ∈ R)
    (hid : r.thread_id = i) :
    r = t.record ∧ t.recorded := by
  obtain ⟨u, hu, rfl, hrec⟩ := h.recorded r hr
  rw [hid, ht] at hu
  cases hu
  exact ⟨rfl, hrec⟩

/-! ### One thread is put -/

section Put

variable {threads : Nat → Option Life} {t' : Life} {next next' : Nat}

theorem put_cases {j : Nat} {u : Life} (hu : Function.update threads i (some t') j = some u) :
    j = i ∧ u = t' ∨ j ≠ i ∧ threads j = some u := by
  by_cases hj : j = i
  · subst hj
    rw [Function.update_self] at hu
    exact .inl ⟨rfl, (Option.some.inj hu).symm⟩
  · rw [Function.update_of_ne hj] at hu
    exact .inr ⟨hj, hu⟩

theorem put_thread {r : thread_type} {P : Life → Prop}
    (hself : r.thread_id = i → r = t'.record ∧ P t')
    (hothers : r.thread_id ≠ i → ∃ u, threads r.thread_id = some u ∧ u.record = r ∧ P u) :
    ∃ u, Function.update threads i (some t') r.thread_id = some u ∧ u.record = r ∧ P u := by
  by_cases hri : r.thread_id = i
  · obtain ⟨rfl, hP⟩ := hself hri
    refine ⟨t', ?_, rfl, hP⟩
    rw [hri, Function.update_self]
  · obtain ⟨u, hu, hur, hP⟩ := hothers hri
    refine ⟨u, ?_, hur, hP⟩
    rw [Function.update_of_ne hri]
    exact hu

theorem put_ids (h : ∀ j u, threads j = some u → u.record.thread_id = j ∧ j < next)
    (hid : t'.record.thread_id = i) (hlt : i < next') (hnext : next ≤ next') {j : Nat} {u : Life}
    (hu : Function.update threads i (some t') j = some u) :
    u.record.thread_id = j ∧ j < next' := by
  rcases put_cases hu with ⟨rfl, rfl⟩ | ⟨-, hu⟩
  · exact ⟨hid, hlt⟩
  · obtain ⟨hj, hjlt⟩ := h j u hu
    exact ⟨hj, hjlt.trans_le hnext⟩

theorem put_apart
    (h : ∀ j k u v, threads j = some u → threads k = some v → u.in_use = true → v.in_use = true →
      u.record.sys_thread = v.record.sys_thread → j = k)
    (hapart : t'.in_use = true → ∀ j u, j ≠ i → threads j = some u → u.in_use = true →
      u.record.sys_thread ≠ t'.record.sys_thread) {j k : Nat} {u v : Life}
    (hu : Function.update threads i (some t') j = some u)
    (hv : Function.update threads i (some t') k = some v) (hju : u.in_use = true)
    (hkv : v.in_use = true) (heq : u.record.sys_thread = v.record.sys_thread) : j = k := by
  rcases put_cases hu with ⟨rfl, rfl⟩ | ⟨hj, hu'⟩ <;>
    rcases put_cases hv with ⟨rfl, rfl⟩ | ⟨hk, hv'⟩
  · rfl
  · exact absurd heq.symm (hapart hju k v hk hv' hkv)
  · exact absurd heq (hapart hkv j u hj hu' hju)
  · exact h j k u v hu' hv' hju hkv heq

end Put

theorem Inv.step {tree : avl_tree Key (BitVec 32)} {next : Nat} {freed : List Key} {t' : Life}
    (h : Inv s R) (htree : Records tree R') (hid : t'.record.thread_id = i) (hlt : i < next)
    (hnext : s._next_thread_id ≤ next) (hmain : i = 0 → t'.phase ≠ .created ∧ t'.phase ≠ .started)
    (hother : ∀ r, r.thread_id ≠ i → (r ∈ R' ↔ r ∈ R))
    (hown : ∀ r ∈ R', r.thread_id = i → r = t'.record ∧ t'.recorded)
    (hnew : t'.record ∈ R' → t'.record ∈ R ∨ t'.in_use = true)
    (hapart : t'.in_use = true → ∀ j u, j ≠ i → s.threads j = some u → u.in_use = true →
      u.record.sys_thread ≠ t'.record.sys_thread)
    (hrunning : i ≠ 0 → t'.phase = .running →
      t'.record ∈ R' ∧ ∀ r ∈ R', r.sys_thread = t'.record.sys_thread → i ≤ r.thread_id)
    (hleaving : ∀ th, t'.phase = .leaving th → Leaves t' R' th) :
    Inv (Library.put { s with _next_thread_id := next, _threadtree := tree, freed := freed } t')
      R' := by
  rw [Library.put, hid]
  refine ⟨htree, fun j u hu => put_ids h.ids hid hlt hnext hu,
    ⟨Nat.zero_lt_of_lt hlt, fun u hu => ?_⟩, fun r hr => ?_,
    fun j k u v hu hv => put_apart h.apart hapart hu hv, fun j u hu hj hrun => ?_,
      fun j u th hu hl => ?_⟩
  · rcases put_cases hu with ⟨rfl, rfl⟩ | ⟨-, hu⟩
    · exact hmain rfl
    · exact h.main.2 u hu
  · exact put_thread (hown r hr) fun hri => h.recorded r ((hother r hri).mp hr)
  · rcases put_cases hu with ⟨rfl, rfl⟩ | ⟨hji, hu⟩
    · exact hrunning hj hrun
    · obtain ⟨hmem, hleast⟩ := h.running j u hu hj hrun
      have huid := (h.ids j u hu).1
      refine ⟨(hother _ (huid.symm ▸ hji)).mpr hmem, fun r hr hsame => ?_⟩
      by_cases hri : r.thread_id = i
      · obtain ⟨rfl, -⟩ := hown r hr hri
        rcases hnew hr with hold | huse
        · exact hleast _ hold hsame
        · exact absurd hsame.symm (hapart huse j u hji hu (by simp [Life.in_use, hrun]))
      · exact hleast r ((hother r hri).mp hr) hsame
  · rcases put_cases hu with ⟨rfl, rfl⟩ | ⟨hji, hu⟩
    · exact hleaving th hl
    · obtain ⟨hknown, hfound⟩ := h.leaving j u th hu hl
      have huid := (h.ids j u hu).1
      exact ⟨hknown, fun hmem => hfound ((hother _ (huid.symm ▸ hji)).mp hmem)⟩

/-! ## Moves -/

theorem Inv.phase (h : Inv s R) (ht : s.threads i = some t) {p : Phase}
    (hrec : t.record ∈ R → t.recorded → Life.recorded { t with phase := p })
    (huse : Life.in_use { t with phase := p } = true → t.in_use = true)
    (hmain : p ≠ .created ∧ p ≠ .started) (hrun : p ≠ .running)
    (hleave : ∀ th, p = .leaving th → Leaves t R th) : Inv (s.put { t with phase := p }) R := by
  obtain ⟨hid, hlt⟩ := h.ids i t ht
  refine h.step h.tree hid hlt le_rfl (fun _ => hmain) (fun _ _ => Iff.rfl)
    (fun r hr hri => ?_) .inl ?_
    (fun _ hp => absurd hp hrun) hleave
  · obtain ⟨rfl, hold⟩ := h.mem_self ht hr hri
    exact ⟨rfl, hrec hr hold⟩
  · intro hp j u hj hu huse' heq
    exact hj (h.apart j i u t hu ht huse' (huse hp) heq)

theorem Inv.remove (h : Inv s R) (ht : s.threads i = some t) {p : Phase}
    (huse : Life.in_use { t with phase := p } = true → t.in_use = true)
    (hmain : p ≠ .created ∧ p ≠ .started) (hrun : p ≠ .running)
    (hleave : ∀ th, p ≠ .leaving th) :
    ∃ s' R', (do let s ← remove s t.record; return s.put { t with phase := p }) = .ok s' ∧
      Inv s' R' := by
  obtain ⟨hid, hlt⟩ := h.ids i t ht
  obtain ⟨ret, tree, freed, R', hdel, htree, hmem⟩ := h.tree.delete t.record (some fun _ => 1)
  rw [hid] at hmem
  refine ⟨_, R', run_bind (run_bind hdel rfl) rfl, ?_⟩
  refine h.step htree hid hlt le_rfl (fun _ => hmain) (fun r hr => ?_) (fun r hr hri => ?_)
    (fun hr => ?_) ?_
    (fun _ hp => absurd hp hrun) fun th hp => absurd hp (hleave th)
  · rw [hmem, and_iff_left hr]
  · exact absurd hri ((hmem r).mp hr).2
  · exact .inl ((hmem _).mp hr).1
  · intro hp j u hj hu huse' heq
    exact hj (h.apart j i u t hu ht huse' (huse hp) heq)

theorem not_taken {sys_thread : pthread_t} (h : ¬ s.taken sys_thread = true) {j : Nat}
    (hj : j < s._next_thread_id) {u : Life} (hu : s.threads j = some u) (huse : u.in_use = true) :
    u.record.sys_thread ≠ sys_thread := by
  intro heq
  refine h (List.any_eq_true.mpr ⟨j, List.mem_range.mpr hj, ?_⟩)
  rw [hu, Option.any_some, huse, Bool.true_and]
  exact decide_eq_true heq

theorem create_inv (h : Inv s R) (detached : Bool) : Inv (thread_create_c s detached) R := by
  have hfree (r : thread_type) (hr : r ∈ R) : r.thread_id ≠ s._next_thread_id := by
    obtain ⟨u, hu, -⟩ := h.recorded r hr
    exact (h.ids _ u hu).2.ne
  have hpos := h.main.1
  exact h.step h.tree rfl (Nat.lt_succ_self _) (Nat.le_succ _) (fun hi => absurd hi hpos.ne')
    (fun _ _ => Iff.rfl)
    (fun r hr hri => absurd hri (hfree r hr)) .inl (by simp [Life.in_use]) (by simp) (by simp)

theorem pthread_create_inv (h : Inv s R) (ht : s.threads i = some t) (hphase : t.phase = .created)
    (sys_thread : Option pthread_t) : Inv (pthread_create s t sys_thread) R := by
  have hrec : ¬ t.recorded := by simp [Life.recorded, hphase]
  obtain ⟨hid, hlt⟩ := h.ids i t ht
  cases sys_thread with
  | none =>
    exact h.phase ht (fun _ hold => absurd hold hrec) (by simp [Life.in_use]) (by simp)
      (by simp) (by simp)
  | some sys_thread =>
    unfold pthread_create
    dsimp only
    split_ifs with htaken
    · exact h
    · refine h.step h.tree hid hlt le_rfl (fun hi => ?_) (fun _ _ => Iff.rfl)
        (fun r hr hri => ?_) .inl ?_ (by simp)
        (by simp)
      · subst hi
        exact absurd hphase (h.main.2 t ht).1
      · exact absurd (h.mem_self ht hr hri).2 hrec
      · intro _ j u _ hu huse
        exact not_taken htaken (h.ids j u hu).2 hu huse

theorem Inv.started_absent (h : Inv s R) (ht : s.threads i = some t) (hphase : t.phase = .started) :
    ∀ r ∈ R, r.thread_id ≠ t.record.thread_id := by
  intro r hr hri
  rw [(h.ids i t ht).1] at hri
  obtain ⟨-, hrec⟩ := h.mem_self ht hr hri
  simp [Life.recorded, hphase] at hrec

theorem start_routine_inv (h : Inv s R) (ht : s.threads i = some t)
    (hphase : t.phase = .started) (wish : Nat)
    (hfirst : ∀ r ∈ R, r.sys_thread = t.record.sys_thread → i ≤ r.thread_id) :
    ∃ s' R', start_routine s t (some wish) = .ok s' ∧ Inv s' R' := by
  obtain ⟨hid, hlt⟩ := h.ids i t ht
  have hfree := h.started_absent ht hphase
  obtain ⟨tree, R', hins, htree, hmem⟩ := h.tree.insert t.record hfree wish
  refine ⟨_, R', run_bind hins rfl, ?_⟩
  refine h.step htree hid hlt le_rfl (fun _ => by simp) (fun r hr => ?_) (fun r hr hri => ?_)
    (fun _ => .inr (by simp [Life.in_use])) ?_ (fun _ _ => ⟨?_, fun r hr hsame => ?_⟩) (by simp)
  · rw [hmem]
    refine or_iff_right ?_
    rintro rfl
    exact hr hid
  · rcases (hmem r).mp hr with rfl | hold
    · exact ⟨rfl, trivial⟩
    · exact absurd (hri.trans hid.symm) (hfree r hold)
  · intro _ j u hj hu huse heq
    exact hj (h.apart j i u t hu ht huse (by simp [Life.in_use, hphase]) heq)
  · exact (hmem _).mpr (.inl rfl)
  · rcases (hmem r).mp hr with rfl | hold
    · exact hid.ge
    · exact hfirst r hold hsame

theorem joined_of_recorded (hrec : t.recorded) (huse : ¬ t.in_use = true) :
    t.phase = .joined ∧ t.record.detached = false := by
  unfold Life.in_use at huse
  unfold Life.recorded at hrec
  cases hp : t.phase <;> rw [hp] at huse hrec
  case joined => exact ⟨rfl, hrec⟩
  case ended => simp [hrec] at huse
  case created | started | removed => exact hrec.elim
  case running | leaving | finished => exact absurd rfl huse

/-- What `thread_self` finds is the record of the caller, or that of a thread that was joined. -/
theorem exit_leaves (h : Inv s R) (ht : s.threads i = some t) (hphase : t.phase = .running) :
    ∃ th, thread_self s._threadtree t.record.sys_thread = .ok th ∧ Leaves t R th := by
  obtain ⟨hid, hlt⟩ := h.ids i t ht
  refine ⟨_, h.tree.self _, fun r hr => ?_, fun hmem => ?_⟩
  · have hr' := List.mem_of_find?_eq_some hr
    have hsame : r.sys_thread = t.record.sys_thread := by simpa using List.find?_some hr
    obtain ⟨u, hu, rfl, hrec⟩ := h.recorded r hr'
    by_cases huse : u.in_use = true
    · have hui := h.apart _ i u t hu ht huse (by simp [Life.in_use, hphase]) hsame
      rw [hui, ht] at hu
      cases hu
      exact .inl rfl
    · exact .inr (joined_of_recorded hrec huse).2
  · have hleast : ∀ r ∈ R, r.sys_thread = t.record.sys_thread →
        t.record.thread_id ≤ r.thread_id := by
      intro r hr hsame
      by_cases hi : i = 0
      · rw [hid, hi]
        exact Nat.zero_le _
      · rw [hid]
        exact (h.running i t ht hi hphase).2 r hr hsame
    have hself := h.tree.self_own hmem hleast
    rw [h.tree.self] at hself
    exact Except.ok.inj hself

theorem load_yields {th : thread_type} {f : thread_type → C Library} {P : Library → Prop}
    (hf : Yields (f th) P) :
    Yields (s.load th >>= f) P := by
  unfold Library.load
  split_ifs
  · exact yields_error .dangling
  · exact hf

theorem inv_yields {x : C Library} (h : ∃ s' R', x = .ok s' ∧ Inv s' R') :
    Yields x fun s' => ∃ R', Inv s' R' := by
  obtain ⟨s', R', rfl, h'⟩ := h
  exact yields_ok ⟨R', h'⟩

theorem leave_some (s : Library) (t : Life) (th : thread_type) :
    leave s t (some th) = s.load th >>= fun th =>
      if th.detached then remove s th >>= fun s => pure (s.put { t with phase := .finished })
      else pure (s.put { t with phase := .finished }) := rfl

theorem leave_inv (h : Inv s R) (ht : s.threads i = some t) {th : Key}
    (hphase : t.phase = .leaving th) :
    Yields (leave s t th) fun s' => ∃ R', Inv s' R' := by
  obtain ⟨hknown, hfound⟩ := h.leaving i t th ht hphase
  have huse : t.in_use = true := by simp [Life.in_use, hphase]
  have hstay (hrec : t.record ∈ R → t.record.detached = false) :
      Inv (s.put { t with phase := .finished }) R :=
    h.phase ht (fun hr _ => hrec hr) (fun _ => huse) (by simp) (by simp) (by simp)
  cases th with
  | none => exact yields_ok ⟨R, hstay fun hr => absurd (hfound hr) (by simp)⟩
  | some r =>
    rw [leave_some]
    refine load_yields (inv_yields ?_)
    by_cases hdetached : r.detached = true
    · have hown : r = t.record := (hknown r rfl).resolve_right (by simp [hdetached])
      rw [if_pos hdetached]
      rw [hown] at hdetached ⊢
      exact h.remove ht (fun _ => huse) (by simp) (by simp) (by simp)
    · refine ⟨_, R, ?_, hstay fun hr => ?_⟩
      rotate_left
      · rw [← Option.some.inj (hfound hr)]
        simpa using hdetached
      · rw [if_neg hdetached]
        rfl

/-- A running thread begins to leave. -/
theorem leaving_inv (h : Inv s R) (ht : s.threads i = some t) (hphase : t.phase = .running)
    {th : Key} (hleaves : Leaves t R th) :
    Yields (.ok (s.put { t with phase := .leaving th }) : C Library) fun s' => ∃ R', Inv s' R' := by
  refine yields_ok ⟨R, h.phase ht (fun _ _ => trivial) (fun _ => ?_) (by simp) (by simp) ?_⟩
  · simp [Life.in_use, hphase]
  · rintro _ ⟨⟩
    exact hleaves

theorem pthread_join_inv (h : Inv s R) (ht : s.threads i = some t) :
    Yields (s.move t .ended .pthread_join) fun s' => ∃ R', Inv s' R' := by
  unfold Library.move
  by_cases hdetached : t.record.detached = true
  · rw [if_pos hdetached]
    exact yields_ok ⟨R, h⟩
  · rw [if_neg hdetached]
    refine load_yields (yields_ok ⟨R, h.phase ht (fun _ _ => ?_) (by simp [Life.in_use])
      (by simp) (by simp) (by simp)⟩)
    simpa [Life.recorded] using hdetached

theorem step_inv (h : Inv s R) {a : Action} (ha : ¬ Hidden s a) :
    Yields (step s a) fun s' => ∃ R', Inv s' R' := by
  have hstutter : Yields (.ok s : C Library) fun s' => ∃ R', Inv s' R' := yields_ok ⟨R, h⟩
  cases a with
  | thread_create_c detached => exact yields_ok ⟨R, create_inv h detached⟩
  | move i move =>
    cases ht : s.threads i with
    | none =>
      unfold step
      simp only [ht]
      exact hstutter
    | some t =>
      have hstep : step s (.move i move) = s.move t t.phase move := by
        unfold step
        simp only [ht]
      rw [hstep]
      cases hphase : t.phase <;> cases move <;> try exact hstutter
      case created.pthread_create sys_thread =>
        exact yields_ok ⟨R, pthread_create_inv h ht hphase sys_thread⟩
      case started.start_routine reply =>
        cases reply with
        | none => exact absurd ⟨t, ht, hphase, .inl rfl⟩ ha
        | some wish =>
          refine inv_yields (start_routine_inv h ht hphase wish fun r hr hsame => ?_)
          by_contra hlt
          exact ha ⟨t, ht, hphase, .inr ⟨R, h.tree, r, hr, hsame, Nat.not_le.mp hlt⟩⟩
      case running.returns =>
        unfold Library.move
        by_cases hi : t.record.thread_id = 0
        · rw [if_pos hi]
          exact hstutter
        · rw [if_neg hi]
          exact leaving_inv h ht hphase
            ⟨fun r hr => .inl (Option.some.inj hr).symm, fun _ => rfl⟩
      case running.thread_exit_c =>
        obtain ⟨th, hself, hleaves⟩ := exit_leaves h ht hphase
        unfold Library.move
        rw [hself, ok_bind]
        exact leaving_inv h ht hphase hleaves
      case leaving.leave th => exact leave_inv h ht hphase
      case finished.exit =>
        refine yields_ok
          ⟨R, h.phase ht (fun _ hold => ?_) (fun _ => ?_) (by simp) (by simp) (by simp)⟩
        · simpa [Life.recorded, hphase] using hold
        · simp [Life.in_use, hphase]
      case ended.pthread_join =>
        exact pthread_join_inv h ht
      case joined.thread_join =>
        exact load_yields
          (inv_yields (h.remove ht (by simp [Life.in_use]) (by simp) (by simp) (by simp)))

/-! ## The exact condition -/

theorem hidden_breaks (h : Inv s R) {a : Action} (ha : Hidden s a) :
    ∃ s', step s a = .ok s' ∧ ¬ OwnRecords s' := by
  cases a with
  | thread_create_c detached => exact ha.elim
  | move i move =>
    cases move with
    | start_routine reply =>
      obtain ⟨t, ht, hphase, hwhy⟩ := ha
      obtain ⟨hid, hlt⟩ := h.ids i t ht
      have hi : i ≠ 0 := by
        rintro rfl
        exact (h.main.2 t ht).2 hphase
      have hfree := h.started_absent ht hphase
      have hstep : step s (.move i (.start_routine reply)) = start_routine s t reply := by
        unfold step
        simp only [ht, hphase]
        rfl
      rw [hstep]
      -- What the thread itself finds after the step.
      have hbroken {tree : avl_tree Key (BitVec 32)}
          (hself : thread_self tree t.record.sys_thread ≠ .ok (some t.record)) :
          ¬ OwnRecords
            (Library.put { s with _threadtree := tree } { t with phase := .running }) := by
        intro hall
        refine hself (hall i { t with phase := .running } ?_ hi rfl)
        rw [Library.put, hid]
        exact Function.update_self _ _ _
      cases reply with
      | none =>
        obtain ⟨tree, hins, htree⟩ := h.tree.refuse (some t.record)
        refine ⟨_, run_bind hins rfl, hbroken ?_⟩
        rw [htree.self]
        intro hfind
        exact hfree t.record (List.mem_of_find?_eq_some (Except.ok.inj hfind)) rfl
      | some wish =>
        obtain ⟨R', htree, r, hr, hsame, hless⟩ := hwhy.resolve_left (by simp)
        obtain rfl := htree.unique h.tree
        obtain ⟨tree, R', hins, htree', hmem⟩ := htree.insert t.record hfree wish
        exact ⟨_, run_bind hins rfl,
          hbroken (htree'.self_other ((hmem r).mpr (.inr hr)) hsame (hid.symm ▸ hless))⟩
    | _ => exact ha.elim

theorem initialize_inv {m : Memory (avl_node Key (BitVec 32))} {reply : Option Nat}
    {sys_thread : pthread_t} {detached : Bool}
    (hinit : thread_initialize m reply sys_thread detached = .ok s) : ∃ R, Inv s R := by
  unfold thread_initialize at hinit
  cases hnew : avl_tree_new _compare_threads m with
  | none =>
    rw [hnew] at hinit
    exact absurd hinit (by simp)
  | some tree =>
    rw [hnew] at hinit
    -- The record of the main thread, if there was memory for its node.
    obtain ⟨ret, tree', hins, R, htree, hmem⟩ : ∃ ret tree',
        avl_insert (answered tree reply) (some ⟨0, sys_thread, detached⟩) = .ok (ret, tree') ∧
        ∃ R, Records tree' R ∧ ∀ r ∈ R, r = ⟨0, sys_thread, detached⟩ := by
      cases reply with
      | none =>
        obtain ⟨tree', hins, htree⟩ := (new_records hnew).refuse (some ⟨0, sys_thread, detached⟩)
        exact ⟨_, tree', hins, [], htree, by simp⟩
      | some wish =>
        obtain ⟨tree', R, hins, htree, hmem⟩ :=
          (new_records hnew).insert ⟨0, sys_thread, detached⟩ (by simp) wish
        exact ⟨_, tree', hins, R, htree, fun r hr => ((hmem r).mp hr).resolve_right (by simp)⟩
    simp only [hins, ok_bind, pure_eq_ok, Except.ok.injEq] at hinit
    subst hinit
    have hmain {j : Nat} {u : Life}
        (hu : Function.update (fun _ => none) 0 (some ⟨⟨0, sys_thread, detached⟩, .running⟩) j =
          some u) :
        j = 0 ∧ u = ⟨⟨0, sys_thread, detached⟩, .running⟩ := by
      by_cases hj : j = 0
      · subst hj
        rw [Function.update_self] at hu
        exact ⟨rfl, (Option.some.inj hu).symm⟩
      · rw [Function.update_of_ne hj] at hu
        exact absurd hu (by simp)
    refine ⟨R, htree, fun j u hu => ?_, ⟨Nat.one_pos, fun u hu => ?_⟩, fun r hr => ?_,
      fun j k u v hu hv _ _ _ => ?_,
      fun j u hu hj _ => absurd (hmain hu).1 hj, fun j u th hu hl => ?_⟩
    · obtain ⟨rfl, rfl⟩ := hmain hu
      exact ⟨rfl, Nat.one_pos⟩
    · obtain ⟨-, rfl⟩ := hmain (j := 0) hu
      simp
    · obtain rfl := hmem r hr
      exact ⟨⟨⟨0, sys_thread, detached⟩, .running⟩, rfl, rfl, trivial⟩
    · exact (hmain hu).1.trans (hmain hv).1.symm
    · obtain ⟨-, rfl⟩ := hmain hu
      exact absurd hl (by simp)

/-- In a run, every thread finds its own record in every state exactly if none starts without one,
or behind another one that has its `pthread_t`. -/
theorem own_records_iff {m : Memory (avl_node Key (BitVec 32))} {reply : Option Nat}
    {sys_thread : pthread_t} {detached : Bool} {s0 : Library}
    (hinit : thread_initialize m reply sys_thread detached = .ok s0)
    (actions : List Action) :
    (∀ pre post s, actions = pre ++ post → pre.foldlM step s0 = .ok s → OwnRecords s) ↔
      ∀ pre a post s, actions = pre ++ a :: post → pre.foldlM step s0 = .ok s → ¬ Hidden s a := by
  refine run_iff (fun s => ∃ R, Inv s R) ?_ ?_ ?_ (initialize_inv hinit) actions
  · rintro s ⟨R, h⟩
    exact h.own_records
  · rintro s a ⟨R, h⟩ ha
    exact step_inv h ha
  · rintro s a ⟨R, h⟩ ha
    exact hidden_breaks h ha

theorem own_records_iff_fresh :
    ∃ s0, thread_initialize (fresh Key (BitVec 32)) (some 2) 5 false = .ok s0 ∧
    ∀ actions : List Action,
      (∀ pre post s, actions = pre ++ post → pre.foldlM step s0 = .ok s → OwnRecords s) ↔
        ∀ pre a post s, actions = pre ++ a :: post → pre.foldlM step s0 = .ok s → ¬ Hidden s a := by
  obtain ⟨s0, hinit⟩ : ∃ s0, thread_initialize (fresh Key (BitVec 32)) (some 2) 5 false = .ok s0 :=
    ⟨_, rfl⟩
  exact ⟨s0, hinit, own_records_iff hinit⟩

/-- One thread is joined, and its `pthread_t` goes to a second one before `thread_join` goes on. -/
def reused : List Action :=
  [.thread_create_c false, .move 1 (.pthread_create (some 7)), .move 1 (.start_routine (some 3)),
    .move 1 .returns, .move 1 .leave, .move 1 .exit, .move 1 .pthread_join,
    .thread_create_c false, .move 2 (.pthread_create (some 7)), .move 2 (.start_routine (some 4))]

theorem reused_finds_other :
    ∃ s0 s, thread_initialize (fresh Key (BitVec 32)) (some 2) 5 false = .ok s0 ∧
    reused.foldlM step s0 = .ok s ∧ s.threads 2 = some ⟨⟨2, 7, false⟩, .running⟩ ∧
    thread_self s._threadtree 7 = .ok (some ⟨1, 7, false⟩) := by
  refine ⟨_, _, rfl, rfl, rfl, ?_⟩
  rfl

theorem records_not_always_own :
    ¬ ∀ m reply sys_thread detached s0 (actions : List Action) s,
      thread_initialize m reply sys_thread detached = .ok s0 → actions.foldlM step s0 = .ok s →
      OwnRecords s := by
  intro h
  obtain ⟨s0, s, hinit, hrun, hthread, hself⟩ := reused_finds_other
  have hown := h _ _ _ _ s0 reused s hinit hrun 2 _ hthread (by decide) rfl
  exact absurd (hself.symm.trans hown) (by decide)

end Thread
