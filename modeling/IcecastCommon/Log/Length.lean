import IcecastCommon.Log.Recent

/-!
# The length that is reported

Every entry counts the NUL behind its text. So what `log_contents` reports is too much by the number
of lines.
-/

namespace Log

open Lib

variable {w w' : Logger} {id : Nat} {l : Kept}

/-! ## No empty entries -/

/-- Every entry has a line break in front of its NUL. -/
abbrev Full (heap : Heap log_entry_t) : Prop := heap.All fun e => 2 ≤ e.len

theorem remove_head_full (h : Full w.heap) (id : Nat) :
    Yields (remove_head w id) fun w' => Full w'.heap :=
  yields_bind fun _ _ => yields_bind fun _ hfree => yields_ok (Heap.all_free h hfree)

theorem remove_loop_full (id count rounds : Nat) (h : Full w.heap) :
    Yields (remove_loop id count rounds w) fun w' => Full w'.heap := by
  induction rounds generalizing w with
  | zero => exact yields_ok h
  | succ rounds ih =>
    unfold remove_loop
    exact yields_ite (fun _ => (remove_head_full h id).bind fun _ h1 => ih h1) fun _ => yields_ok h

theorem store_tail_full (h : Full w.heap) (id entry : Nat) :
    Yields (store_tail w id entry) fun w' => Full w'.heap := by
  unfold store_tail
  split
  · exact yields_ok h
  · refine yields_bind fun heap hupdate => yields_ok ?_
    exact Heap.all_update h (f := fun e => { e with next := some entry }) (fun _ hx => hx) hupdate

theorem link_entry_full (h : Full w.heap) (log_id entry len : Nat) :
    Yields (link_entry w log_id entry len) fun r => Full r.2.heap := by
  refine (store_tail_full h log_id entry).bind fun w1 h1 => ?_
  refine yields_ite (fun _ => ?_) fun _ => yields_ok h1
  exact (remove_head_full (w := w1.put log_id _) h1 log_id).bind fun _ h2 => yields_ok h2

theorem fprintf_heap (w : Logger) (file : Option FILE) (text : Bytes) :
    Yields (w.fprintf file text) fun r => r.2.heap = w.heap := by
  unfold Logger.fprintf
  split
  · exact yields_error _
  · exact yields_ok rfl

theorem create_log_entry_full {pre line : CString}
    (hfits : (text_of pre line).bytes.length + 1 < 2 ^ 32) (h : Full w.heap)
    (log_id : Nat) : Yields (create_log_entry w log_id pre line) fun r => Full r.2.heap := by
  intro r hr
  by_cases hkeep : (w.loglist log_id).keep_entries = 0
  · unfold create_log_entry at hr
    rw [if_pos hkeep] at hr
    rw [fprintf_heap w _ _ r hr]
    exact h
  · obtain ⟨file, -, hlink⟩ := create_log_entry_linked hkeep hfits hr
    have hlen : 2 ≤ (entry_of (text_of pre line)).len := by
      show 2 ≤ (text_of pre line).bytes.length + 1
      rw [text_of_length]
      exact Nat.le_add_left _ _
    exact link_entry_full (Heap.all_alloc h hlen) log_id _ _ r hlink

theorem write_line_full {pre : CString} {line : Line} (hpre : pre.bytes.length ≤ 255)
    (h : Full w.heap) (id : Nat) :
    Yields (write_line w id pre line) fun w' => Full w'.heap := by
  have h1 : Full (_log_open w id).2.heap := (_log_open_spec w id).heap ▸ h
  refine write_line_keeps (fun _ => h1) fun _ r hr => ?_
  have h2 := create_log_entry_full (text_fits hpre line) h1 id r hr
  exact ⟨h2, h2⟩

theorem call_full (h : Full w.heap) (c : Call) : Yields (call w c) fun w' => Full w'.heap := by
  suffices hall : ∀ result, Does w c result → Yields result fun w' =>
    Full w'.heap from hall _ (call_does w c)
  have hsame {w' : Logger} (hheap : w'.heap = w.heap) : Full w'.heap := hheap ▸ h
  intro result hdoes
  cases hdoes with
  | nothing hnothing => exact fun w' hw' => hsame (hnothing w' hw').1
  | opens _ hnew _ => exact yields_ok (hsame hnew.heap)
  | sets hsets _ => exact yields_ok (hsame hsets.heap)
  | removes hsets _ _ => exact remove_loop_full _ _ _ (hsame hsets.heap)
  | writes _ hheap _ hpre => exact write_line_full hpre (hsame hheap) _

theorem Full.nonempty (h : Full w.heap) {p : Ptr} (hlist : List_at w.heap p l) :
    ∀ e ∈ l, e.2.bytes ≠ [] := by
  induction l generalizing p with
  | nil => exact fun e he => absurd he List.not_mem_nil
  | cons e l ih =>
    obtain ⟨-, x, hget, hx, hrest⟩ := hlist
    intro e' he'
    rcases List.mem_cons.mp he' with rfl | he'
    · have hlen : 2 ≤ x.len := h _ x hget
      rw [hx.len] at hlen
      exact List.ne_nil_of_length_pos (by omega)
    · exact ih hrest e' he'

theorem holds_unique (x : log_entry_t) (text text' : CString) (h : Holds x text)
    (h' : Holds x text') : text = text' := by
  have hblock : text.block = text'.block := h.line.symm.trans h'.line
  calc text = CString.cut text.block := (text.cut_append []).symm
    _ = text' := by rw [hblock]; exact text'.cut_append []

/-- In a state that calls lead to, the counter of a log is the length of its texts with
their NULs. -/
theorem reachable_list {answers : Answers} {calls : List Call}
    (hrun : calls.foldlM call (Log.log_initialize answers) = .ok w)
    (hlist : List_at w.heap (w.loglist id).log_head l) :
    (w.loglist id).total = total_of l % 2 ^ 64 ∧ Listed w.heap (w.loglist id) l ∧
      ∀ e ∈ l, e.2.bytes ≠ [] := by
  obtain ⟨lists, harranged⟩ := run_arranged answers calls w hrun
  have hfull : Full w.heap := by
    refine run_yields (fun w => Full w.heap) (fun c _ w h => call_full h c) ?_ w hrun
    intro a x ha
    exact absurd ha (by simp [Heap.get, log_initialize])
  have hslot := harranged.slots id
  obtain rfl := Chain.unique holds_unique hslot.list hlist
  exact ⟨hslot.total, hslot.toListed, hfull.nonempty hlist⟩

/-! ## Reading -/

theorem snprintf_length {room : Nat} {buf : Bytes} {ptr size : Nat} {text : Bytes}
    (hbuf : buf.length ≤ room) :
    Yields (snprintf room buf ptr size text) fun buf' => buf'.length ≤ room := by
  refine yields_ite (fun _ => yields_ok hbuf) fun _ =>
    yields_ite (fun hroom => yields_ok ?_) fun _ => yields_error _
  simp only [List.length_append, List.length_take, List.length_drop,
    List.length_singleton] at hroom ⊢
  omega

theorem contents_loop_length {heap : Heap log_entry_t} {room fuel : Nat} {p : Ptr} {buf : Bytes}
    {ptr : Nat} {remain : Int} (hbuf : buf.length ≤ room) :
    Yields (contents_loop heap room fuel p buf ptr remain) fun buf' => buf'.length ≤ room := by
  induction fuel generalizing p buf ptr remain with
  | zero =>
    cases p with
    | none => exact yields_ok hbuf
    | some a => exact yields_error _
  | succ fuel ih =>
    cases p with
    | none => exact yields_ok hbuf
    | some a =>
      refine yields_bind fun entry _ => yields_bind fun text _ =>
        (snprintf_length hbuf).bind fun buf' hbuf' => ?_
      exact yields_ite (fun _ => ih hbuf') fun _ => ih hbuf'

/-- What `log_contents` returns: the texts of the lines, and how many bytes they have. -/
def Reports (w : Logger) (id : Int) (l : Kept) : Prop :=
  ∃ contents len w', log_contents w id = .ok (some (contents, len), w') ∧
    cstring contents = .ok (texts l).flatten ∧
    len = (texts l).flatten.length

theorem log_contents_bounds {id : Int} {contents : Bytes} {len : Nat}
    (hrun : log_contents w id = .ok (some (contents, len), w')) :
    contents.length < 2 ^ 31 ∧ len = (w.loglist id.toNat).total % 2 ^ 32 := by
  unfold log_contents at hrun
  by_cases hid : valid id = true
  swap
  · rw [if_pos hid] at hrun
    exact absurd hrun (by simp)
  rw [if_neg (not_not.mpr hid)] at hrun
  dsimp only [Logger.malloc] at hrun
  split at hrun
  · exact absurd hrun (by simp)
  next w1 hw =>
    have hsize : ((int ((w.loglist id.toNat).total + 1)) % 2 ^ 64).toNat < 2 ^ 63 := by
      have hgrants := (Prod.mk.inj hw).1
      rw [Bool.and_eq_true] at hgrants
      exact of_decide_eq_true hgrants.2
    by_cases hroom : ((int ((w.loglist id.toNat).total + 1)) % 2 ^ 64).toNat = 0
    · rw [if_pos hroom] at hrun
      exact nomatch hrun
    rw [if_neg hroom] at hrun
    obtain ⟨buf, hloop, hresult⟩ := bind_eq_ok.mp hrun
    obtain ⟨hpair, -⟩ := Prod.mk.inj (Except.ok.inj hresult)
    obtain ⟨rfl, rfl⟩ := Prod.mk.inj (Option.some.inj hpair)
    refine ⟨?_, rfl⟩
    have hlength := contents_loop_length (Nat.pos_of_ne_zero hroom) buf hloop
    have hint : -2 ^ 31 ≤ int ((w.loglist id.toNat).total + 1) ∧
        int ((w.loglist id.toNat).total + 1) < 2 ^ 31 := wrap_range _
    omega

theorem cstring_length {block text : Bytes} (h : cstring block = .ok text) :
    text.length < block.length := by
  unfold cstring at h
  split_ifs at h with hnul
  · obtain rfl := Except.ok.inj h
    rw [← idxOf_eq]
    exact List.idxOf_lt_length_iff.mpr hnul

theorem empty_of_reports {answers : Answers} {calls : List Call}
    (hrun : calls.foldlM call (Log.log_initialize answers) = .ok w)
    {id : Int} (hlist : List_at w.heap (w.loglist id.toNat).log_head l) (h : Reports w id l) :
    l = [] := by
  obtain ⟨htotal, -, hnonempty⟩ := reachable_list hrun hlist
  obtain ⟨contents, len, w', hcontents, htext, hlen⟩ := h
  obtain ⟨hsmall, hreported⟩ := log_contents_bounds hcontents
  have hlength := cstring_length htext
  have hlines := length_le_texts hnonempty
  have hsum := total_of_eq l
  rw [htotal] at hreported
  exact List.eq_nil_of_length_eq_zero (by omega)

/-- **The length that is reported is that of the text** exactly if no line is kept. -/
theorem reported_length_iff {answers : Answers} {calls : List Call}
    (hrun : calls.foldlM call (Log.log_initialize answers) = .ok w) {id : Int}
    (hid : valid id = true) (hlist : List_at w.heap (w.loglist id.toNat).log_head l)
    (hmalloc : w.answers.malloc 0 = true) :
    Reports w id l ↔ l = [] := by
  refine ⟨empty_of_reports hrun hlist, ?_⟩
  rintro rfl
  obtain ⟨htotal, hlisted, -⟩ := reachable_list hrun hlist
  obtain ⟨id, rfl⟩ : ∃ n : Nat, id = n :=
    ⟨id.toNat, by simp only [valid, decide_eq_true_eq, not_or] at hid; omega⟩
  rw [Int.toNat_natCast] at htotal hlisted
  obtain ⟨w', hcontents⟩ :=
    log_contents_spec hlisted hid hmalloc (htotal.trans (by decide)) (by decide)
  exact ⟨_, _, w', hcontents, rfl, htotal⟩

/-- Three lines are written. The first goes when the third comes, and the others when no line is to
be kept any more. -/
def dropped_lines : List Call :=
  [.log_open (some (.cut (ascii "a"))), .log_set_lines_kept 0 2,
    .log_write_direct 0 ⟨.cut (ascii "x"), x_fits⟩, .log_write_direct 0 ⟨.cut (ascii "x"), x_fits⟩,
    .log_write_direct 0 ⟨.cut (ascii "x"), x_fits⟩, .log_set_lines_kept 0 0]

theorem reported_length_dropped :
    ∃ w, dropped_lines.foldlM call (Log.log_initialize generous) = .ok w ∧ Reports w 0 [] := by
  obtain ⟨w, hrun, hlist⟩ : ∃ w, dropped_lines.foldlM call (Log.log_initialize generous) = .ok w ∧
      List_at w.heap (w.loglist 0).log_head [] := ⟨_, rfl, rfl⟩
  have hmalloc : w.answers.malloc 0 = true := Except.ok.inj hrun ▸ rfl
  exact ⟨w, hrun, (@reported_length_iff _ [] generous _ hrun 0 (by decide) hlist hmalloc).mpr rfl⟩

/-- One line is kept. -/
def kept_line : List Call :=
  [.log_open (some (.cut (ascii "a"))), .log_set_lines_kept 0 1,
    .log_write_direct 0 ⟨.cut (ascii "x"), x_fits⟩]

theorem reported_length_wrong :
    ¬ ∀ (answers : Answers) (calls : List Call) (w : Logger) (id : Int) (l : Kept),
    calls.foldlM call (Log.log_initialize answers) = .ok w → valid id = true →
    List_at w.heap (w.loglist id.toNat).log_head l → w.answers.malloc 0 = true →
      Reports w id l := by
  intro h
  obtain ⟨w, hrun, hlist⟩ : ∃ w, kept_line.foldlM call (Log.log_initialize generous) = .ok w ∧
      List_at w.heap (w.loglist 0).log_head [(0, .cut (ascii "x\n"))] := by
    exact ⟨_, rfl, rfl, _, rfl, ⟨rfl, rfl, by decide⟩, rfl⟩
  have hmalloc : w.answers.malloc 0 = true := Except.ok.inj hrun ▸ rfl
  have hreports : Reports w 0 _ := h _ _ w 0 _ hrun (by decide) hlist hmalloc
  exact absurd (@empty_of_reports w _ _ _ hrun 0 hlist hreports) (by simp)

end Log
