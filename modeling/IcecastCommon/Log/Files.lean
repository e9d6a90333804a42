import IcecastCommon.Log.Run

/-!
# Open files

A log in use has an open file, or a name to open one with. Only `log_set_filename` can take the
second away while the first is missing.
-/

namespace Log

open Lib

variable {w w' : Logger} {id : Nat} {log : log_t}

/-- The file that is written to is open. -/
def FilesOpen (w : Logger) : Prop :=
  ∀ id < LOG_MAXLOGS, (_log_open w id).1 = 1 → ((_log_open w id).2.loglist id).logfile ≠ none

def AllBacked (w : Logger) : Prop := ∀ id, Backed (w.loglist id)

theorem backed_open (h : AllBacked w) : FilesOpen w := by
  intro id _ hret
  obtain ⟨logfile, size, hslots, -, hopened⟩ := (_log_open_spec w id).slot
  obtain ⟨huse, hfile⟩ := hopened (by rw [hret]; decide)
  rw [hslots, Function.update_self]
  intro hnone
  obtain ⟨hname, hlogfile⟩ := hfile.mp hnone
  exact (h id huse).elim (absurd hname) (absurd hlogfile)

/-! ## What keeps files -/

/-- The fields that have to do with files are the same. -/
structure SameFile (log log' : log_t) : Prop where
  in_use : log'.in_use = log.in_use
  filename : log'.filename = log.filename
  logfile : log'.logfile = log.logfile

theorem SameFile.refl (log : log_t) : SameFile log log := ⟨rfl, rfl, rfl⟩

def SameFiles (w w' : Logger) : Prop := ∀ id, SameFile (w.loglist id) (w'.loglist id)

theorem SameFiles.backed (hs : SameFiles w w') (h : AllBacked w) : AllBacked w' := by
  intro id huse
  obtain ⟨hin_use, hfilename, hlogfile⟩ := hs id
  rw [hfilename, hlogfile]
  exact h id (hin_use.symm.trans huse)

theorem SameFiles.trans {w'' : Logger} (h : SameFiles w w') (h' : SameFiles w' w'') :
    SameFiles w w'' := by
  intro id
  obtain ⟨h1, h2, h3⟩ := h id
  obtain ⟨h1', h2', h3'⟩ := h' id
  exact ⟨h1'.trans h1, h2'.trans h2, h3'.trans h3⟩

theorem same_files_put (hslots : w'.loglist = Function.update w.loglist id log)
    (hs : SameFile (w.loglist id) log) :
    SameFiles w w' :=
  slots_put (P := fun j log' => SameFile (w.loglist j) log') hslots hs fun _ => SameFile.refl _

theorem backed_put (h : AllBacked w) (hslots : w'.loglist = Function.update w.loglist id log)
    (hb : Backed log) :
    AllBacked w' :=
  slots_put (P := fun _ => Backed) hslots hb h

/-- Everything but the list of a log is the same. -/
def SameRest (log log' : log_t) : Prop :=
  ∃ log_head log_tail total entries,
    log' = { log with
      log_head := log_head, log_tail := log_tail, total := total, entries := entries }

def SameRests (w w' : Logger) : Prop := ∀ id, SameRest (w.loglist id) (w'.loglist id)

theorem rests_same (hslots : w'.loglist = w.loglist) : SameRests w w' :=
  fun id => ⟨_, _, _, _, congrFun hslots id⟩

theorem SameRests.trans {w'' : Logger} (h : SameRests w w') (h' : SameRests w' w'') :
    SameRests w w'' := by
  intro id
  obtain ⟨head, tail, total, entries, hlog⟩ := h id
  obtain ⟨head', tail', total', entries', hlog'⟩ := h' id
  refine ⟨head', tail', total', entries', ?_⟩
  rw [hlog', hlog]

theorem rests_put (id : Nat) (hslots : w'.loglist = Function.update w.loglist id log)
    (hs : SameRest (w.loglist id) log) :
    SameRests w w' :=
  slots_put (P := fun j log' => SameRest (w.loglist j) log') hslots hs fun _ => ⟨_, _, _, _, rfl⟩

theorem SameRests.files (h : SameRests w w') : SameFiles w w' := by
  intro id
  obtain ⟨head, tail, total, entries, hlog⟩ := h id
  rw [hlog]
  exact ⟨rfl, rfl, rfl⟩

/-- Only what belongs to the lists is changed. -/
structure Relinked (w w' : Logger) : Prop where
  rests : SameRests w w'
  answers : w'.answers = w.answers
  events : w'.events = w.events

theorem Relinked.trans {w'' : Logger} (h : Relinked w w') (h' : Relinked w' w'') : Relinked w w'' :=
  ⟨h.rests.trans h'.rests, h'.answers.trans h.answers, h'.events.trans h.events⟩

theorem relinked_same (hslots : w'.loglist = w.loglist) (hanswers : w'.answers = w.answers)
    (hevents : w'.events = w.events) :
    Relinked w w' := ⟨rests_same hslots, hanswers, hevents⟩

theorem relinked_put (id : Nat) {head : Ptr} {tail : Tail} {total entries : Nat}
    (hslots : w'.loglist = Function.update w.loglist id { w.loglist id with
      log_head := head, log_tail := tail, total := total, entries := entries })
    (hanswers : w'.answers = w.answers) (hevents : w'.events = w.events) : Relinked w w' :=
  ⟨rests_put id hslots ⟨head, tail, total, entries, rfl⟩, hanswers, hevents⟩

theorem remove_head_relinked (w : Logger) (id : Nat) : Yields (remove_head w id) (Relinked w) :=
  yields_bind fun _ _ => yields_bind fun _ _ => yields_ok (relinked_put id rfl rfl rfl)

theorem remove_loop_relinked (id count rounds : Nat) (w : Logger) :
    Yields (remove_loop id count rounds w) (Relinked w) := by
  induction rounds generalizing w with
  | zero => exact yields_ok (relinked_same rfl rfl rfl)
  | succ rounds ih =>
    unfold remove_loop
    refine yields_ite (fun _ => (remove_head_relinked w id).bind fun w1 h1 => ?_) fun _ =>
      yields_ok (relinked_same rfl rfl rfl)
    have h2 : Relinked w (w1.put id fun log => { log with entries := log.entries - 1 }) :=
      h1.trans (relinked_put id rfl rfl rfl)
    exact fun w' hw' => h2.trans (ih _ w' hw')

theorem store_tail_relinked (w : Logger) (id entry : Nat) :
    Yields (store_tail w id entry) (Relinked w) := by
  unfold store_tail
  split
  · exact yields_ok (relinked_put _ rfl rfl rfl)
  · exact yields_bind fun _ _ => yields_ok (relinked_same rfl rfl rfl)

theorem link_entry_relinked (w : Logger) (log_id entry len : Nat) :
    Yields (link_entry w log_id entry len) fun r => r.1 = len ∧ Relinked w r.2 := by
  refine (store_tail_relinked w log_id entry).bind fun w1 h1 => ?_
  have h2 : Relinked w (w1.put log_id fun log => { log with log_tail := .next entry }) :=
    h1.trans (relinked_put log_id rfl rfl rfl)
  refine yields_ite (fun _ => (remove_head_relinked _ log_id).bind fun w3 h3 =>
    yields_ok ⟨rfl, h2.trans h3⟩) fun _ => ?_
  exact yields_ok ⟨rfl, h2.trans (relinked_put log_id rfl rfl rfl)⟩

theorem fprintf_rests (w : Logger) (file : Option FILE) (text : Bytes) :
    Yields (w.fprintf file text) fun r => SameRests w r.2 := by
  unfold Logger.fprintf
  split
  · exact yields_error _
  · exact yields_ok (rests_same rfl)

theorem create_log_entry_rests (w : Logger) (log_id : Nat) (pre line : CString) :
    Yields (create_log_entry w log_id pre line) fun r => SameRests w r.2 := by
  refine yields_ite (fun _ => fprintf_rests w _ _) fun _ => ?_
  split
  · exact yields_error _
  next w1 hc =>
    dsimp only
    split
    · exact yields_error _
    next w2 hm =>
      obtain ⟨-, rfl⟩ := Prod.mk.inj hc
      obtain ⟨-, rfl⟩ := Prod.mk.inj hm
      refine yields_bind fun buf _ => yields_bind fun text _ =>
        (fprintf_rests _ _ _).bind fun printed h1 => ?_
      intro r hr
      refine (SameRests.trans ?_ h1).trans (link_entry_relinked _ _ _ _ r hr).2.rests
      exact rests_put log_id rfl ⟨_, _, _, _, rfl⟩

theorem write_line_backed (h : AllBacked w) (pre : CString) (line : Line) :
    Yields (write_line w id pre line) AllBacked := by
  obtain ⟨logfile, size, hslots, hname, -⟩ := (_log_open_spec w id).slot
  have h1 : AllBacked (_log_open w id).2 := by
    refine backed_put h hslots fun huse => ?_
    by_cases hnone : (w.loglist id).filename = none
    · have hlogfile := (h id huse).resolve_left (not_not.mpr hnone)
      rw [← hname hnone] at hlogfile
      exact .inr hlogfile
    · exact .inl hnone
  refine write_line_keeps (fun _ => h1) fun _ r hr => ?_
  have h2 := (create_log_entry_rests _ id pre line.text r hr).files
  have h3 : SameFiles r.2 (r.2.put id fun log => { log with size := log.size + r.1 }) :=
    same_files_put rfl ⟨rfl, rfl, rfl⟩
  exact ⟨h2.backed h1, (h2.trans h3).backed h1⟩

theorem call_backed (h : AllBacked w) {c : Call} (hc : ¬ Unnames w c) :
    Yields (call w c) AllBacked := by
  suffices hall : ∀ result, Does w c result → Yields result AllBacked from hall _ (call_does w c)
  have hsame {w' : Logger} (hslots : w'.loglist = w.loglist) : AllBacked w' := fun j => by
    rw [hslots]
    exact h j
  intro result hdoes
  cases hdoes with
  | nothing hnothing => exact fun w' hw' => hsame (hnothing w' hw').2
  | opens _ hnew _ =>
    obtain ⟨log, hslots, -, hlogfile, -⟩ := hnew.slot
    exact yields_ok (backed_put h hslots fun _ => .inr hlogfile)
  | sets hsets _ => exact yields_ok (backed_put h hsets.slots (hsets.files.resolve_left hc (h _)))
  | removes hsets _ _ =>
    intro w' hw'
    refine (remove_loop_relinked _ _ _ _ w' hw').rests.files.backed ?_
    exact backed_put h hsets.slots (hsets.files.resolve_left hc (h _))
  | writes _ _ hslots _ => exact write_line_backed (hsame hslots) _ _

/-! ## The exact condition -/

/-- Without a name, nothing is opened. -/
theorem unbacked_open (hid : id < LOG_MAXLOGS) (huse : (w.loglist id).in_use = true)
    (hname : (w.loglist id).filename = none) (hfile : (w.loglist id).logfile = none) :
    ¬ FilesOpen w := by
  have hopen : _log_open w id = (1, w.put id fun log => { log with size := 0 }) := by
    unfold _log_open
    rw [if_neg (not_not.mpr huse), if_pos (.inl hfile)]
    simp only [hname]
  intro h
  refine h id hid ?_ ?_
  · rw [hopen]
  · rw [hopen, put_self]
    exact hfile

theorem unnames_breaks {c : Call} (hc : Unnames w c) :
    ∃ w', call w c = .ok w' ∧ ¬ FilesOpen w' := by
  cases c with
  | log_set_filename id filename =>
    obtain ⟨hid, huse, hfile, hloses⟩ := hc
    have hempty : filename.map CString.bytes ≠ some [] := by
      rcases hloses with rfl | ⟨hempty, -⟩
      · simp
      · exact hempty
    have hslot :
        (log_set_filename w id filename).2.loglist id.toNat =
        { w.loglist id.toNat with filename := none } := by
      unfold log_set_filename
      rw [if_neg (not_not.mpr hid), if_neg (not_or.mpr ⟨hempty, not_not.mpr huse⟩)]
      cases filename with
      | none => simp
      | some filename => simp [Logger.strdup, Logger.put, (hloses.resolve_left (by simp)).2]
    refine ⟨(log_set_filename w id filename).2, rfl, unbacked_open (valid_lt hid) ?_ ?_ ?_⟩
    all_goals rw [hslot]
    · exact huse
    · exact hfile
  | _ => exact hc.elim

/-- In a run, logs are only written through open files exactly if no log without an open file loses
its name. -/
theorem files_open_iff (answers : Answers) (calls : List Call) :
    (∀ pre post w, calls = pre ++ post → pre.foldlM call (Log.log_initialize answers) = .ok w →
      FilesOpen w) ↔
      ∀ pre c post w, calls = pre ++ c :: post →
      pre.foldlM call (Log.log_initialize answers) = .ok w →
      ¬ Unnames w c := by
  refine run_iff AllBacked (fun w h => backed_open h) (fun w c h hc => call_backed h hc)
    (fun w c _ hc => unnames_breaks hc) ?_ calls
  intro id huse
  exact absurd huse (by simp [unused, log_initialize])

/-- The file is closed to be opened again, and the name is taken away before that. -/
def unnamed : List Call :=
  [.log_open (some (.cut (ascii "a"))), .log_reopen 0, .log_set_filename 0 none]

theorem unnamed_null :
    ∃ w, unnamed.foldlM call (Log.log_initialize generous) = .ok w ∧ ¬ FilesOpen w ∧
    call w (.log_write_direct 0 ⟨.cut (ascii "x"), x_fits⟩) = .error .null :=
  ⟨_, rfl, unbacked_open (show 0 < LOG_MAXLOGS by decide) rfl rfl rfl, rfl⟩

theorem files_not_always_open :
    ¬ ∀ (answers : Answers) (calls : List Call) w,
      calls.foldlM call (Log.log_initialize answers) = .ok w → FilesOpen w := by
  intro h
  obtain ⟨w, hrun, hclosed, -⟩ := unnamed_null
  exact hclosed (h generous unnamed w hrun)

end Log
