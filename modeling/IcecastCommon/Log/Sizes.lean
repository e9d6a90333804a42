import IcecastCommon.Log.Files

/-!
# The size of a file

What is added to the size for a line is what `fprintf` returns, or the length of its entry, which
has one byte more.
-/

namespace Log

open Lib

variable {w w' : Logger} {id : Nat} {file : FILE}

/-! ## Lines -/

/-- The bytes that were written to a file. -/
def bytes_to (file : FILE) (events : List Event) : Nat :=
  (events.map fun event => match event with
    | .fprintf f text => if f = file then text.length else 0
    | _ => 0).sum

@[simp] theorem bytes_to_append (file : FILE) (events events' : List Event) :
    bytes_to file (events ++ events') = bytes_to file events + bytes_to file events' := by
  simp [bytes_to]

/-- The line that a call writes, and the dates that are left for the next ones. -/
def next_line (level : Nat) (dates : Nat → CString) : Call → Option CString × (Nat → CString)
  | .log_write _ priority cat func line =>
    if level < priority ∨ priority = 0 ∨ priority > prior.length then (none, dates)
    else (some (text_of (pre_of (dates 0) priority cat func) line.text), fun n => dates (n + 1))
  | .log_write_direct _ line => (some (text_of (.cut []) line.text), dates)
  | _ => (none, dates)

/-- What is added to the size for a line. -/
def counted (keep_entries : Nat) : Option CString → Nat
  | none => 0
  | some text => if keep_entries = 0 then text.bytes.length else text.bytes.length + 1

/-- A log that is open. `fprintf` writes everything, and returns how many bytes that is. -/
structure Writable (w : Logger) (id : Nat) (file : FILE) : Prop where
  in_use : (w.loglist id).in_use = true
  logfile : (w.loglist id).logfile = some file
  fprintf : ∀ n text, w.answers.fprintf n text = text.length

/-- The trigger is not reached. -/
def Quiet (w : Logger) (id : Nat) : Prop :=
  (w.loglist id).trigger_level = 0 ∨ (w.loglist id).size ≤ (w.loglist id).trigger_level

/-- The calls that write to one log, or change how many of its lines are kept. -/
def OnLog (id : Int) : Call → Prop
  | .log_write log_id _ _ _ _ => log_id = id
  | .log_write_direct log_id _ => log_id = id
  | .log_set_lines_kept log_id _ => log_id = id
  | _ => False

theorem quiet_open (huse : (w.loglist id).in_use = true)
    (hfile : (w.loglist id).logfile = some file) (hquiet : Quiet w id) :
    _log_open w id = (1, w) := by
  have hstays : ¬ ((w.loglist id).logfile = none ∨
      ((w.loglist id).trigger_level ≠ 0 ∧ (w.loglist id).size > (w.loglist id).trigger_level)) := by
    rw [hfile, not_or]
    exact ⟨by simp, fun hreached => hquiet.elim hreached.1 (Int.not_le.mpr hreached.2)⟩
  unfold _log_open
  rw [if_neg (not_not.mpr huse), if_neg hstays]

/-- What a call that writes `line`, or nothing, does to a log that is open. -/
structure Adds (w : Logger) (id : Nat) (file : FILE) (line : Option CString)
    (w' : Logger) : Prop where
  writable : Writable w' id file
  level : (w'.loglist id).level = (w.loglist id).level
  events : w'.events = w.events ++ (line.map fun text => Event.fprintf file text.bytes).toList
  size : (w'.loglist id).size = (w.loglist id).size + counted (w.loglist id).keep_entries line

theorem Writable.same (h : Writable w id file) (hrest : SameRest (w.loglist id) (w'.loglist id))
    (hfprintf : ∀ n text, w'.answers.fprintf n text = text.length) : Writable w' id file := by
  obtain ⟨head, tail, total, entries, hlog⟩ := hrest
  refine ⟨?_, ?_, hfprintf⟩
  · rw [hlog]
    exact h.in_use
  · rw [hlog]
    exact h.logfile

theorem Relinked.adds (h : Relinked w w') (hw : Writable w id file) : Adds w id file none w' := by
  have hwritable := hw.same (h.rests id) (h.answers ▸ hw.fprintf)
  obtain ⟨head, tail, total, entries, hlog⟩ := h.rests id
  refine ⟨hwritable, ?_, ?_, ?_⟩
  · rw [hlog]
  · rw [h.events]
    exact (List.append_nil _).symm
  · rw [hlog]
    exact (Int.add_zero _).symm

/-- A line was written, and has not been counted yet. -/
structure LinePrinted (w : Logger) (id : Nat) (file : FILE) (text : CString)
    (w' : Logger) : Prop where
  rest : SameRest (w.loglist id) (w'.loglist id)
  fprintf : w'.answers.fprintf = fun n => w.answers.fprintf (n + 1)
  strftime : w'.answers.strftime = w.answers.strftime
  events : w'.events = w.events ++ [.fprintf file text.bytes]

theorem create_log_entry_printed {pre line : CString} (hfile : (w.loglist id).logfile = some file)
    (hfits : (text_of pre line).bytes.length + 1 < 2 ^ 32) :
    Yields (create_log_entry w id pre line) fun r => LinePrinted w id file (text_of pre line) r.2 ∧
      r.1 = if (w.loglist id).keep_entries = 0 then w.answers.fprintf 0 (text_of pre line).bytes
        else ((text_of pre line).bytes.length + 1 : Nat) := by
  intro r hr
  by_cases hkeep : (w.loglist id).keep_entries = 0
  · have hentry :
        create_log_entry w id pre line = w.fprintf (some file) (text_of pre line).bytes := by
      unfold create_log_entry
      rw [if_pos hkeep, hfile]
      rfl
    obtain rfl := Except.ok.inj (hr.symm.trans hentry)
    rw [if_pos hkeep]
    exact ⟨⟨⟨_, _, _, _, rfl⟩, rfl, rfl, rfl⟩, rfl⟩
  · obtain ⟨file', hfile', hlink⟩ := create_log_entry_linked hkeep hfits hr
    obtain rfl := Option.some.inj (hfile.symm.trans hfile')
    obtain ⟨hlen, hlinked⟩ := link_entry_relinked _ _ _ _ r hlink
    rw [if_neg hkeep]
    refine ⟨⟨?_, by rw [hlinked.answers]; rfl, by rw [hlinked.answers]; rfl,
      by rw [hlinked.events]; rfl⟩, hlen⟩
    obtain ⟨head, tail, total, entries, hlog⟩ := hlinked.rests id
    refine ⟨head, tail, total, entries, ?_⟩
    rw [hlog, with_entry, put_self]

theorem write_line_adds {pre : CString} {line : Line} (h : Writable w id file) (hquiet : Quiet w id)
    (hpre : pre.bytes.length ≤ 255) :
    Yields (write_line w id pre line) fun w' =>
      Adds w id file (some (text_of pre line.text)) w' ∧
      w'.answers.strftime = w.answers.strftime := by
  have hrun : write_line w id pre line = create_log_entry w id pre line.text >>= fun r =>
      pure (if r.1 > 0 then r.2.put id fun log => { log with size := log.size + r.1 }
        else r.2) := by
    unfold write_line
    rw [quiet_open h.in_use h.logfile hquiet]
    rfl
  rw [hrun]
  refine (create_log_entry_printed h.logfile (text_fits hpre line)).bind ?_
  rintro ⟨len, w1⟩ ⟨hprinted, hlen⟩
  dsimp only at hprinted hlen ⊢
  have hwritable := h.same hprinted.rest fun n => hprinted.fprintf ▸ h.fprintf (n + 1)
  have hcounted : len = counted (w.loglist id).keep_entries (some (text_of pre line.text)) := by
    rw [hlen, counted]
    split_ifs
    · exact h.fprintf 0 _
    · rfl
  have hpos : len > 0 := by
    have hlength := text_of_length pre line.text
    rw [hcounted, counted]
    split_ifs <;> omega
  refine yields_ok ?_
  rw [if_pos hpos]
  obtain ⟨head, tail, total, entries, hlog⟩ := hprinted.rest
  refine ⟨⟨⟨?_, ?_, hwritable.fprintf⟩, ?_, hprinted.events, ?_⟩, hprinted.strftime⟩
  · rw [put_self]
    exact hwritable.in_use
  · rw [put_self]
    exact hwritable.logfile
  · rw [put_self, hlog]
  · rw [put_self, hlog, hcounted]

theorem log_set_lines_kept_adds (h : Writable w id file) (hid : valid id = true) (count : Nat) :
    Yields (log_set_lines_kept w id count) fun w' => Adds w id file none w' ∧
      w'.answers.strftime = w.answers.strftime := by
  unfold log_set_lines_kept
  rw [if_neg (not_not.mpr hid), Int.toNat_natCast, if_neg (by simp [h.in_use])]
  intro w' hw'
  have hw1 : Writable (w.put id fun log => { log with keep_entries := count }) id file := by
    refine ⟨?_, ?_, h.fprintf⟩ <;> rw [put_self]
    · exact h.in_use
    · exact h.logfile
  have hlinked := remove_loop_relinked _ _ _ _ w' hw'
  have hadds := hlinked.adds hw1
  refine ⟨⟨hadds.writable, hadds.level.trans ?_, hadds.events, ?_⟩, ?_⟩
  · rw [put_self]
  · rw [hadds.size, put_self]
    rfl
  · rw [hlinked.answers]
    rfl

theorem call_adds {c : Call} (h : Writable w id file) (hquiet : Quiet w id) (hid : valid id = true)
    (hc : OnLog id c) :
    Yields (call w c) fun w' =>
      Adds w id file (next_line (w.loglist id).level w.answers.strftime c).1 w' ∧
      w'.answers.strftime = (next_line (w.loglist id).level w.answers.strftime c).2 := by
  have hsame : Adds w id file none w := (relinked_same rfl rfl rfl).adds h
  cases c with
  | log_set_lines_kept log_id count =>
    obtain rfl := hc
    exact log_set_lines_kept_adds h hid count
  | log_write log_id priority cat func line =>
    obtain rfl := hc
    change Yields (log_write w id priority cat func line) _
    unfold log_write
    dsimp only [next_line]
    rw [if_neg (not_not.mpr hid), Int.toNat_natCast]
    by_cases hlevel : (w.loglist id).level < priority
    · rw [if_pos hlevel, if_pos (.inl hlevel)]
      exact yields_ok ⟨hsame, rfl⟩
    by_cases hpriority : priority = 0 ∨ priority > prior.length
    · rw [if_neg hlevel, if_pos hpriority, if_pos (.inr hpriority)]
      exact yields_ok ⟨hsame, rfl⟩
    rw [if_neg hlevel, if_neg hpriority, if_neg (not_or.mpr ⟨hlevel, hpriority⟩)]
    have hw1 : Writable w.strftime.2 id file := ⟨h.in_use, h.logfile, h.fprintf⟩
    intro w' hw'
    obtain ⟨hadds, hdates⟩ :=
      write_line_adds hw1 hquiet (pre_of_length w.strftime.1 priority cat func) w' hw'
    exact ⟨⟨hadds.writable, hadds.level, hadds.events, hadds.size⟩, hdates⟩
  | log_write_direct log_id line =>
    obtain rfl := hc
    change Yields (log_write_direct w id line) _
    unfold log_write_direct
    rw [if_neg (not_not.mpr hid)]
    exact write_line_adds h hquiet (Nat.zero_le _)
  | _ => exact hc.elim

/-! ## Triggers -/

theorem SameRests.triggers (h : SameRests w w') : SameTriggers w w' := by
  intro j
  obtain ⟨head, tail, total, entries, hlog⟩ := h j
  rw [hlog]

theorem write_line_triggers (w : Logger) (id : Nat) (pre : CString) (line : Line) :
    Yields (write_line w id pre line) (SameTriggers w) := by
  obtain ⟨logfile, size, hslots, -⟩ := (_log_open_spec w id).slot
  have h1 : SameTriggers w (_log_open w id).2 := triggers_put id hslots rfl
  refine write_line_keeps (fun _ => h1) fun _ r hr => ?_
  have h2 := h1.trans (create_log_entry_rests _ id pre line.text r hr).triggers
  exact ⟨h2, h2.trans (triggers_put id rfl rfl)⟩

theorem Sets.other_triggers {c : Call} {i : Nat} {log : log_t} (h : Sets w c i log w')
    (hc : ∀ trigger, c ≠ .log_set_trigger id trigger) :
    (w'.loglist id).trigger_level = (w.loglist id).trigger_level := by
  rcases h.trigger with ⟨trigger, rfl⟩ | htrigger
  · have hne : id ≠ i := fun heq => hc trigger (by rw [heq])
    rw [h.slots, Function.update_of_ne hne]
  · exact triggers_put i h.slots htrigger id

theorem call_trigger {c : Call} (hc : ∀ trigger, c ≠ .log_set_trigger id trigger) :
    Yields (call w c) fun w' => (w'.loglist id).trigger_level = (w.loglist id).trigger_level := by
  suffices hall : ∀ result, Does w c result →
      Yields result fun w' => (w'.loglist id).trigger_level =
        (w.loglist id).trigger_level from hall _ (call_does w c)
  intro result hdoes
  cases hdoes with
  | nothing hsame => exact fun w' hw' => triggers_same w' (hsame w' hw').2 id
  | opens _ _ htriggers => exact yields_ok (htriggers id)
  | sets hsets _ => exact yields_ok (hsets.other_triggers hc)
  | removes hsets _ _ =>
    exact fun w' hw' =>
      ((remove_loop_relinked _ _ _ _ w' hw').rests.triggers id).trans (hsets.other_triggers hc)
  | @writes i pre line w1 _ _ hslots _ =>
    exact fun w' hw' => (write_line_triggers w1 i pre line w' hw' id).trans (by rw [hslots])

theorem run_trigger {calls : List Call}
    (hcalls : ∀ c ∈ calls, ∀ trigger, c ≠ .log_set_trigger id trigger) :
    Yields (calls.foldlM call w) fun w' =>
      (w'.loglist id).trigger_level = (w.loglist id).trigger_level :=
  run_yields (fun w' => (w'.loglist id).trigger_level = (w.loglist id).trigger_level)
    (fun c hc _ h1 w2 hw2 => (call_trigger (hcalls c hc) w2 hw2).trans h1) rfl

/-! ## Runs -/

/-- The trigger is never reached. -/
def QuietAlong (w : Logger) (id : Nat) (calls : List Call) : Prop :=
  ∀ pre post w', calls = pre ++ post → pre.foldlM call w = .ok w' → Quiet w' id

/-- A line is written and kept. -/
def KeepsLine (w : Logger) (id : Nat) (c : Call) : Prop :=
  (w.loglist id).keep_entries ≠ 0 ∧ (next_line (w.loglist id).level w.answers.strftime c).1 ≠ none ∧
  ∃ w', call w c = .ok w'

def NoneKept (w : Logger) (id : Nat) (calls : List Call) : Prop :=
  ∀ pre c post w', calls = pre ++ c :: post → pre.foldlM call w = .ok w' → ¬ KeepsLine w' id c

/-- The size is what was written since the state `w`, where it was zero. -/
def Accounted (w : Logger) (id : Nat) (file : FILE) (w' : Logger) : Prop :=
  (w'.loglist id).size + bytes_to file w.events = bytes_to file w'.events

/-- All lines of a run. -/
def lines_of (level : Nat) : (Nat → CString) → List Call → List Bytes
  | _, [] => []
  | dates, c :: calls =>
    ((next_line level dates c).1.map CString.bytes).toList ++
      lines_of level (next_line level dates c).2 calls

/-- The calls without those that change how many lines are kept. -/
def writes (calls : List Call) : List Call :=
  calls.filter fun c => match c with
    | .log_set_lines_kept _ _ => false
    | _ => true

theorem lines_of_writes (level : Nat) (dates : Nat → CString) (calls : List Call) :
    lines_of level dates (writes calls) = lines_of level dates calls := by
  induction calls generalizing dates with
  | nil => rfl
  | cons c calls ih =>
    cases c with
    | log_set_lines_kept log_id count => exact ih dates
    | _ => exact congrArg (List.append _) (ih _)

section Runs

variable {calls : List Call}

theorem bytes_to_line (file : FILE) (line : Option CString) :
    bytes_to file (line.map fun text => Event.fprintf file text.bytes).toList =
      (line.map CString.bytes).toList.flatten.length := by
  cases line <;> simp [bytes_to]

theorem Adds.bytes {line : Option CString} (h : Adds w id file line w') :
    bytes_to file w'.events = bytes_to file w.events +
      (line.map CString.bytes).toList.flatten.length := by
  rw [h.events, bytes_to_append, bytes_to_line]

theorem counted_zero (line : Option CString) :
    counted 0 line = (line.map CString.bytes).toList.flatten.length := by
  cases line <;> simp [counted]

theorem counted_kept {keep_entries : Nat} (hkeep : keep_entries ≠ 0) {line : Option CString}
    (hline : line ≠ none) :
    counted keep_entries line = (line.map CString.bytes).toList.flatten.length + 1 := by
  obtain ⟨text, rfl⟩ := Option.ne_none_iff_exists'.mp hline
  simp [counted, hkeep]

theorem QuietAlong.tail {c : Call} (h : QuietAlong w id (c :: calls)) (hrun : call w c = .ok w') :
    QuietAlong w' id calls := by
  intro pre post w'' hcalls hpre
  refine h (c :: pre) post w'' (by rw [hcalls]; rfl) ?_
  rw [List.foldlM_cons, hrun, ok_bind, hpre]

/-- The log stays open, and what is written does not depend on the lines that are kept. -/
theorem run_written (h : Writable w id file) (hid : valid id = true)
    (hcalls : ∀ c ∈ calls, OnLog id c) (hquiet : QuietAlong w id calls) :
    Yields (calls.foldlM call w) fun w' => Writable w' id file ∧
      bytes_to file w'.events =
        bytes_to file w.events +
        (lines_of (w.loglist id).level w.answers.strftime calls).flatten.length := by
  induction calls generalizing w with
  | nil => exact yields_ok ⟨h, rfl⟩
  | cons c calls ih =>
    intro w' hrun
    rw [List.foldlM_cons] at hrun
    obtain ⟨w1, hcall, hrun⟩ := bind_eq_ok.mp hrun
    obtain ⟨hadds, hdates⟩ := call_adds h (hquiet [] _ w rfl rfl) hid (hcalls c (by simp)) w1 hcall
    obtain ⟨hwritable, hbytes⟩ :=
      ih hadds.writable (fun c hc => hcalls c (List.mem_cons_of_mem _ hc))
        (hquiet.tail hcall) w' hrun
    refine ⟨hwritable, ?_⟩
    rw [hbytes, hadds.bytes, hadds.level, hdates, lines_of, List.flatten_append, List.length_append,
      Nat.add_assoc]

theorem run_accounted (h : Writable w id file) (hid : valid id = true)
    (hempty : (w.loglist id).size = 0) (hcalls : ∀ c ∈ calls, OnLog id c)
    (hquiet : QuietAlong w id calls) (hnone : NoneKept w id calls) :
    Yields (calls.foldlM call w) (Accounted w id file) := by
  have hstart : Writable w id file ∧ Accounted w id file w :=
    ⟨h, by rw [Accounted, hempty, Int.zero_add]⟩
  refine fun w' hrun =>
    (run_yields_along (fun w' => Writable w' id file ∧ Accounted w id file w') hstart ?_ w' hrun).2
  rintro pre c post w1 hl hpre ⟨hw1, haccounted⟩ w2 hcall
  have hc : OnLog id c := hcalls c (by rw [hl]; simp)
  obtain ⟨hadds, -⟩ := call_adds hw1 (hquiet pre _ w1 hl hpre) hid hc w2 hcall
  refine ⟨hadds.writable, ?_⟩
  have hcounted :
    counted (w1.loglist id).keep_entries (next_line (w1.loglist id).level w1.answers.strftime c).1 =
      ((next_line (w1.loglist id).level w1.answers.strftime c).1.map
        CString.bytes).toList.flatten.length := by
    by_cases hkeep : (w1.loglist id).keep_entries = 0
    · rw [hkeep, counted_zero]
    · have hline : (next_line (w1.loglist id).level w1.answers.strftime c).1 = none := by
        by_contra hline
        exact hnone pre c post w1 hl hpre ⟨hkeep, hline, w2, hcall⟩
      rw [hline]
      rfl
  have hbytes := hadds.bytes
  have hsize := hadds.size
  unfold Accounted at haccounted ⊢
  rw [hcounted] at hsize
  omega

/-- A line that is kept counts one byte too many. -/
theorem kept_not_accounted {c : Call} (h : Writable w' id file) (hquiet : Quiet w' id)
    (hid : valid id = true) (hc : OnLog id c) (hkeeps : KeepsLine w' id c)
    (haccounted : Accounted w id file w') :
    ∃ w'', call w' c = .ok w'' ∧ ¬ Accounted w id file w'' := by
  obtain ⟨hkeep, hline, w'', hcall⟩ := hkeeps
  obtain ⟨hadds, -⟩ := call_adds h hquiet hid hc w'' hcall
  have hbytes := hadds.bytes
  have hsize := hadds.size
  rw [counted_kept hkeep hline] at hsize
  refine ⟨w'', hcall, fun hafter => ?_⟩
  unfold Accounted at haccounted hafter
  omega

theorem none_kept_of_accounted (h : Writable w id file) (hid : valid id = true)
    (hcalls : ∀ c ∈ calls, OnLog id c) (hquiet : QuietAlong w id calls)
    (haccounted : ∀ pre post w', calls = pre ++ post → pre.foldlM call w = .ok w' →
      Accounted w id file w') :
    NoneKept w id calls := by
  intro pre c post w1 hl hpre hkeeps
  have hquiet1 : QuietAlong w id pre :=
    fun pre' post' w2 hl' => hquiet pre' (post' ++ c :: post) w2 (by rw [hl, hl']; simp)
  have hw1 := (run_written h hid (fun c hc => hcalls c (by rw [hl]; simp [hc])) hquiet1 w1 hpre).1
  obtain ⟨w2, hcall, hnot⟩ :=
    kept_not_accounted hw1 (hquiet pre _ w1 hl hpre) hid (hcalls c (by rw [hl]; simp)) hkeeps
      (haccounted pre _ w1 hl hpre)
  refine hnot (haccounted (pre ++ [c]) post w2 (by rw [hl]; simp) ?_)
  rw [List.foldlM_append, hpre, ok_bind, List.foldlM_cons, hcall, ok_bind]
  rfl

/-- **The size of an open file is what was written to it** in all states of a run exactly if no line
of the run is kept. Runs that write the same lines, and keep none, end with the same size. -/
theorem size_accounted_iff (h : Writable w id file) (hid : valid id = true)
    (hempty : (w.loglist id).size = 0) (hcalls : ∀ c ∈ calls, OnLog id c)
    (hquiet : QuietAlong w id calls) :
    ((∀ pre post w', calls = pre ++ post → pre.foldlM call w = .ok w' → Accounted w id file w') ↔
      NoneKept w id calls) ∧
      ∀ calls', (∀ c ∈ calls', OnLog id c) → QuietAlong w id calls' → writes calls' = writes calls →
        NoneKept w id calls → NoneKept w id calls' → ∀ w1 w2, calls.foldlM call w = .ok w1 →
        calls'.foldlM call w = .ok w2 →
          (w1.loglist id).size = (w2.loglist id).size := by
  refine ⟨⟨none_kept_of_accounted h hid hcalls hquiet, fun hnone pre post w' hl hpre => ?_⟩, ?_⟩
  · refine run_accounted h hid hempty (fun c hc => hcalls c (by rw [hl]; simp [hc])) ?_ ?_ w' hpre
    · exact fun pre' post' w2 hl' => hquiet pre' (post' ++ post) w2 (by rw [hl, hl']; simp)
    · exact fun pre' c post' w2 hl' => hnone pre' c (post' ++ post) w2 (by rw [hl, hl']; simp)
  · intro calls' hcalls' hquiet' hwrites hnone hnone' w1 w2 hrun hrun'
    have hsize := run_accounted h hid hempty hcalls hquiet hnone w1 hrun
    have hsize' := run_accounted h hid hempty hcalls' hquiet' hnone' w2 hrun'
    have hbytes := (run_written h hid hcalls hquiet w1 hrun).2
    have hbytes' := (run_written h hid hcalls' hquiet' w2 hrun').2
    rw [← lines_of_writes, hwrites, lines_of_writes] at hbytes'
    unfold Accounted at hsize hsize'
    omega

theorem quiet_of_never (hcalls : ∀ c ∈ calls, OnLog id c)
    (hnever : (w.loglist id).trigger_level = 0) : QuietAlong w id calls := by
  intro pre post w' hl hrun
  refine .inl ((run_trigger (fun c hc trigger hset => ?_) w' hrun).trans hnever)
  have hon := hcalls c (by rw [hl]; exact List.mem_append_left _ hc)
  rw [hset] at hon
  exact hon

end Runs

/-- The log `0` has the file `0`, which is empty, and is never rotated. -/
def never_rotated : Logger :=
  log_set_trigger (log_open (Log.log_initialize generous) (some (.cut (ascii "a")))).2 0 0

def one_line : Call := .log_write_direct 0 ⟨.cut (ascii "x"), x_fits⟩

theorem never_rotated_writable : Writable never_rotated 0 0 := ⟨rfl, rfl, fun _ _ => rfl⟩

/-- Lines are written while none is to be kept, before and after that changes. -/
def none_kept : List Call :=
  [one_line, one_line, .log_set_lines_kept 0 2, .log_set_lines_kept 0 0, one_line,
    .log_set_lines_kept 0 0, one_line]

theorem none_kept_sample : NoneKept never_rotated 0 none_kept := by
  have hzero : ∀ pre c post w', none_kept = pre ++ c :: post →
    pre.foldlM call never_rotated = .ok w' →
      (w'.loglist 0).keep_entries = 0 ∨
      (next_line (w'.loglist 0).level w'.answers.strftime c).1 = none :=
    along_of_all (by decide +kernel)
  intro pre c post w' hl hpre hkeeps
  obtain ⟨hkeep, hline, -⟩ := hkeeps
  exact (hzero pre c post w' hl hpre).elim hkeep hline

theorem size_accounted_sample :
    ∃ w', none_kept.foldlM call never_rotated = .ok w' ∧ Accounted never_rotated 0 0 w' := by
  have hon : ∀ c ∈ none_kept, OnLog (0 : Nat) c := by simp [none_kept, OnLog, one_line]
  have haccounted :=
    (size_accounted_iff never_rotated_writable (by decide) rfl hon (quiet_of_never hon rfl)).1.mpr
      none_kept_sample
  obtain ⟨w', hw'⟩ : ∃ w', none_kept.foldlM call never_rotated = .ok w' := ⟨_, rfl⟩
  exact ⟨w', hw', haccounted none_kept [] w' rfl hw'⟩

/-- One line is kept, and counted with its NUL. -/
theorem size_not_accounted :
    ¬ ∀ (w : Logger) (id : Nat) (file : FILE) (calls : List Call), Writable w id file →
    valid id = true → (w.loglist id).size = 0 → (∀ c ∈ calls, OnLog id c) → QuietAlong w id calls →
    ∀ pre post w', calls = pre ++ post → pre.foldlM call w = .ok w' → Accounted w id file w' := by
  intro h
  have hon : ∀ c ∈ [.log_set_lines_kept 0 1, one_line], OnLog (0 : Nat) c := by
    simp [OnLog, one_line]
  have hquiet : QuietAlong never_rotated 0 [.log_set_lines_kept 0 1, one_line] :=
    quiet_of_never hon rfl
  have hnone := none_kept_of_accounted never_rotated_writable (by decide) hon hquiet
    (h never_rotated 0 0 _ never_rotated_writable (by decide) rfl hon hquiet)
  obtain ⟨w1, hw1, hkeeps⟩ : ∃ w1, [Call.log_set_lines_kept 0 1].foldlM call never_rotated =
      .ok w1 ∧ KeepsLine w1 0 one_line :=
    ⟨_, rfl, by decide, by simp [one_line, next_line], _, rfl⟩
  exact hnone [.log_set_lines_kept 0 1] _ [] w1 rfl hw1 hkeeps

/-! ## Rotation -/

/-- The file is closed and renamed first. -/
def Rotates (w : Logger) (id : Nat) (w' : Logger) : Prop :=
  ∃ file filename new_name, (w.loglist id).logfile = some file ∧
    (w.loglist id).filename = some filename ∧
    w.events ++ [.fclose file, .rename filename.bytes new_name] <+: w'.events

/-- A call that writes a line. -/
def WritesLine (w : Logger) (id : Nat) (c : Call) : Prop :=
  OnLog id c ∧ (next_line (w.loglist id).level w.answers.strftime c).1 ≠ none

section Rotation

variable {filename : CString}

theorem rotate_events (filename : CString) (hfile : (w.loglist id).logfile = some file) :
    ∃ new_name, (rotate w id filename).events =
      w.events ++ [.fclose file, .rename filename.bytes new_name] := by
  unfold rotate
  rw [hfile]
  dsimp only
  split_ifs
  · exact ⟨_, List.append_assoc _ _ _⟩
  · exact ⟨_, List.append_assoc _ _ _⟩

theorem reached_open (huse : (w.loglist id).in_use = true)
    (hfile : (w.loglist id).logfile = some file) (hname : (w.loglist id).filename = some filename)
    (hreached : ¬ Quiet w id) :
    ∃ new_name, w.events ++ [.fclose file, .rename filename.bytes new_name] <+:
      (_log_open w id).2.events := by
  obtain ⟨new_name, hevents⟩ := rotate_events filename hfile
  refine ⟨new_name, ?_⟩
  have hlimit : (w.loglist id).trigger_level ≠ 0 ∧
      (w.loglist id).size > (w.loglist id).trigger_level := by
    unfold Quiet at hreached
    omega
  unfold _log_open
  rw [if_neg (not_not.mpr huse), if_pos (.inr hlimit)]
  simp only [hname]
  rw [← hevents]
  split_ifs
  · exact List.prefix_append _ _
  · exact List.prefix_append _ _

theorem opened_file (hname : (w.loglist id).filename = some filename)
    (hopened : (_log_open w id).1 ≠ 0) :
    ∃ file, ((_log_open w id).2.loglist id).logfile = some file := by
  obtain ⟨logfile, size, hslots, -, hfile⟩ := (_log_open_spec w id).slot
  refine Option.ne_none_iff_exists'.mp fun hnone => ?_
  rw [hslots, Function.update_self] at hnone
  have hnoname := ((hfile hopened).2.mp hnone).1
  exact absurd (hname.symm.trans hnoname) (by simp)

theorem write_line_rotates {pre : CString} {line : Line} (huse : (w.loglist id).in_use = true)
    (hfile : (w.loglist id).logfile = some file) (hname : (w.loglist id).filename = some filename)
    (hpre : pre.bytes.length ≤ 255) :
    Yields (write_line w id pre line) fun w' => Rotates w id w' ↔ ¬ Quiet w id := by
  by_cases hquiet : Quiet w id
  · -- Only the line is written.
    have hopen := quiet_open huse hfile hquiet
    have hnot {w' : Logger}
      (hevents : w'.events = w.events ++ [.fprintf file (text_of pre line.text).bytes]) :
        Rotates w id w' ↔ ¬ Quiet w id := by
      refine iff_of_false ?_ (not_not.mpr hquiet)
      rintro ⟨file', filename', new_name, -, -, hrotated⟩
      rw [hevents, List.prefix_append_right_inj] at hrotated
      exact absurd hrotated.length_le (by simp)
    refine write_line_keeps (fun hclosed => ?_) fun _ r hr => ?_
    · rw [hopen] at hclosed
      exact nomatch hclosed
    rw [hopen] at hr
    obtain ⟨hprinted, -⟩ := create_log_entry_printed hfile (text_fits hpre line) r hr
    exact ⟨hnot hprinted.events, hnot hprinted.events⟩
  · obtain ⟨new_name, hopen⟩ := reached_open huse hfile hname hquiet
    have hrotates {w' : Logger} (hevents : (_log_open w id).2.events <+: w'.events) :
        Rotates w id w' ↔ ¬ Quiet w id :=
      iff_of_true ⟨file, filename, new_name, hfile, hname, hopen.trans hevents⟩ hquiet
    refine write_line_keeps (fun _ => hrotates (List.prefix_refl _)) fun hopened r hr => ?_
    obtain ⟨file', hfile'⟩ := opened_file hname hopened
    obtain ⟨hprinted, -⟩ := create_log_entry_printed hfile' (text_fits hpre line) r hr
    have hevents : (_log_open w id).2.events <+: r.2.events := by
      rw [hprinted.events]
      exact List.prefix_append _ _
    exact ⟨hrotates hevents, hrotates hevents⟩

theorem call_rotates {c : Call} (huse : (w.loglist id).in_use = true)
    (hfile : (w.loglist id).logfile = some file) (hname : (w.loglist id).filename = some filename)
    (hid : valid id = true) (hc : WritesLine w id c) :
    Yields (call w c) fun w' => Rotates w id w' ↔ ¬ Quiet w id := by
  obtain ⟨hon, hline⟩ := hc
  cases c with
  | log_write log_id priority cat func line =>
    obtain rfl := hon
    change Yields (log_write w id priority cat func line) _
    unfold log_write
    dsimp only [next_line] at hline
    rw [if_neg (not_not.mpr hid), Int.toNat_natCast]
    refine yields_ite (fun hlevel => ?_) fun _ => yields_ite (fun hpriority => ?_) fun _ => ?_
    · exact absurd (congrArg Prod.fst (if_pos (.inl hlevel))) hline
    · exact absurd (congrArg Prod.fst (if_pos (.inr hpriority))) hline
    · exact write_line_rotates (w := w.strftime.2) huse hfile hname
        (pre_of_length w.strftime.1 priority cat func)
  | log_write_direct log_id line =>
    obtain rfl := hon
    change Yields (log_write_direct w id line) _
    unfold log_write_direct
    rw [if_neg (not_not.mpr hid)]
    exact write_line_rotates huse hfile hname (Nat.zero_le _)
  | _ => exact absurd rfl hline

/-- The product that `log_set_trigger` stores limits a size of `size` bytes as `1024 * trigger`
does. -/
def SameLimit (trigger : Nat) (size : Int) : Prop :=
  1024 * trigger < 2 ^ 32 ∨
    if 1024 * trigger % 2 ^ 32 = 0 then size ≤ 1024 * trigger
    else size ≤ (1024 * trigger % 2 ^ 32 : Nat) ∨ 1024 * trigger < size

theorem limit_iff {trigger : Nat} (htrigger : 0 < trigger) (size : Int) :
    ((¬ (((trigger * 1024 % 2 ^ 32 : Nat) : Int) = 0 ∨ size ≤ (trigger * 1024 % 2 ^ 32 : Nat))) ↔
      1024 * trigger < size) ↔
      SameLimit trigger size := by
  have hmod : 1024 * trigger % 2 ^ 32 ≤ 1024 * trigger := Nat.mod_le _ _
  rw [Nat.mul_comm trigger, SameLimit]
  by_cases hsmall : 1024 * trigger < 2 ^ 32
  · rw [Nat.mod_eq_of_lt hsmall]
    refine iff_of_true ?_ (.inl hsmall)
    omega
  · rw [or_iff_right hsmall]
    split_ifs with hzero
    · omega
    · omega

theorem trigger_limit {trigger : Nat} {w0 : Logger} (hid : valid id = true)
    (huse0 : (w0.loglist id).in_use = true) {calls : List Call}
    (hcalls : ∀ c ∈ calls, ∀ trigger, c ≠ .log_set_trigger id trigger)
    (hrun : calls.foldlM call (log_set_trigger w0 id trigger) = .ok w) :
    (w.loglist id).trigger_level = (trigger * 1024 % 2 ^ 32 : Nat) := by
  rw [run_trigger hcalls w hrun]
  unfold log_set_trigger
  rw [Int.toNat_natCast, if_pos ⟨hid, huse0⟩, put_self]

/-- **A file is rotated where it should be**, in every state after its trigger was set, exactly if
the product of the trigger fits, or makes no difference for the size. -/
theorem rotation_iff {trigger : Nat} (htrigger : 0 < trigger) {w0 : Logger} (hid : valid id = true)
    (huse0 : (w0.loglist id).in_use = true) {calls : List Call}
    (hcalls : ∀ c ∈ calls, ∀ trigger, c ≠ .log_set_trigger id trigger)
    (hrun : calls.foldlM call (log_set_trigger w0 id trigger) = .ok w)
    (huse : (w.loglist id).in_use = true) (hfile : (w.loglist id).logfile = some file)
    (hname : (w.loglist id).filename = some filename) {c : Call}
    (hc : WritesLine w id c) (hcall : call w c = .ok w') :
    (Rotates w id w' ↔ 1024 * trigger < (w.loglist id).size) ↔
      SameLimit trigger (w.loglist id).size := by
  have hrotates : Rotates w id w' ↔ ¬ Quiet w id := call_rotates huse hfile hname hid hc w' hcall
  rw [hrotates, Quiet, trigger_limit hid huse0 hcalls hrun]
  exact limit_iff htrigger _

end Rotation

theorem one_line_writes (w : Logger) : WritesLine w 0 one_line :=
  ⟨show ((0 : Int) = (0 : Nat)) from rfl, by simp [one_line, next_line]⟩

/-- A log on a file of two kilobytes. -/
def two_kilobytes : Logger :=
  (log_open (Log.log_initialize { generous with stat := fun _ => some 2048 })
    (some (.cut (ascii "a")))).2

/-- Two lines, of which one is kept for a while. -/
def two_lines : List Call := [.log_set_lines_kept 0 1, one_line, .log_set_lines_kept 0 0]

/-- A log that may have two kilobytes, on a file of that size: after the first line it
is rotated. -/
theorem rotation_two_kilobytes :
    ∃ w w', two_lines.foldlM call (log_set_trigger two_kilobytes 0 2) = .ok w ∧
    call w one_line = .ok w' ∧ Rotates w 0 w' := by
  obtain ⟨w, hrun, hsize, huse, hfile, hname⟩ : ∃ w,
    two_lines.foldlM call (log_set_trigger two_kilobytes 0 2) = .ok w ∧
      (w.loglist 0).size = 2051 ∧ (w.loglist 0).in_use = true ∧ (w.loglist 0).logfile = some 0 ∧
      (w.loglist 0).filename = some (.cut (ascii "a")) := ⟨_, rfl, rfl, rfl, rfl, rfl⟩
  obtain ⟨w', hw'⟩ : ∃ w', call w one_line = .ok w' := Except.ok.inj hrun ▸ ⟨_, rfl⟩
  have hrotates :=
    (rotation_iff (show 0 < 2 by decide) (show valid (0 : Nat) = true by decide) rfl
      (by simp [two_lines, one_line])
    hrun huse hfile hname (one_line_writes _) hw').mpr (.inl (by decide))
  refine ⟨w, w', hrun, hw', hrotates.mpr ?_⟩
  rw [hsize]
  decide

/-- Four gigabytes and a kilobyte are stored as a kilobyte. -/
theorem rotation_wraps :
    ¬ ∀ (trigger : Nat) (w0 : Logger) (id : Nat) (calls : List Call) (w w' : Logger) (file : FILE)
    (filename : CString) (c : Call), 0 < trigger → trigger < 2 ^ 32 → valid id = true →
    (w0.loglist id).in_use = true →
    (∀ c ∈ calls, ∀ trigger, c ≠ .log_set_trigger id trigger) →
    calls.foldlM call (log_set_trigger w0 id trigger) = .ok w → (w.loglist id).in_use = true →
    (w.loglist id).logfile = some file → (w.loglist id).filename = some filename →
      WritesLine w id c →
    call w c = .ok w' → (Rotates w id w' ↔ 1024 * trigger < (w.loglist id).size) := by
  intro h
  have hid : valid (0 : Nat) = true := by decide
  obtain ⟨w, hw⟩ : ∃ w, w = log_set_trigger two_kilobytes 0 4194305 := ⟨_, rfl⟩
  have hsize : (w.loglist 0).size = 2048 := hw ▸ rfl
  have hlimit : (w.loglist 0).trigger_level = 1024 := hw ▸ rfl
  have huse : (w.loglist 0).in_use = true := hw ▸ rfl
  have hfile : (w.loglist 0).logfile = some 0 := hw ▸ rfl
  have hname : (w.loglist 0).filename = some (.cut (ascii "a")) := hw ▸ rfl
  obtain ⟨w', hw'⟩ : ∃ w', call w one_line = .ok w' := hw ▸ ⟨_, rfl⟩
  have hrotates : Rotates w 0 w' := by
    refine (call_rotates huse hfile hname hid (one_line_writes w) w' hw').mpr ?_
    rw [Quiet, hsize, hlimit]
    decide
  have hrotates :=
    (h 4194305 two_kilobytes 0 [] w w' 0 (.cut (ascii "a")) one_line (by decide)
      (by decide) hid rfl (by simp)
    (hw ▸ rfl) huse hfile hname (one_line_writes w) hw').mp hrotates
  rw [hsize] at hrotates
  exact absurd hrotates (by decide)

end Log
