import IcecastCommon.Log.Effect

/-!
# Calls

What the program can call, and what one call can do to the logs. What is said about every run that
does not fail is derived from that.
-/

namespace Log

open Lib

variable {id : Nat} {log : log_t} {l : Kept} {w w' : Logger}

/-- What the program can call. -/
inductive Call where
  | log_open (filename : Option CString)
  | log_open_file (file : Option FILE)
  | log_set_trigger (id : Int) (trigger : Nat)
  | log_set_filename (id : Int) (filename : Option CString)
  | log_set_archive_timestamp (id value : Int)
  | log_set_lines_kept (log_id : Int) (count : Nat)
  | log_set_level (log_id : Int) (level : Nat)
  | log_reopen (log_id : Int)
  | log_close (log_id : Int)
  | log_contents (log_id : Int)
  | log_write (log_id : Int) (priority : Nat) (cat func : CString) (line : Line)
  | log_write_direct (log_id : Int) (line : Line)

def call (w : Logger) : Call → C Logger
  | .log_open filename => return (log_open w filename).2
  | .log_open_file file => return (log_open_file w file).2
  | .log_set_trigger id trigger => return log_set_trigger w id trigger
  | .log_set_filename id filename => return (log_set_filename w id filename).2
  | .log_set_archive_timestamp id value => return (log_set_archive_timestamp w id value).2
  | .log_set_lines_kept log_id count => log_set_lines_kept w log_id count
  | .log_set_level log_id level => return log_set_level w log_id level
  | .log_reopen log_id => return log_reopen w log_id
  | .log_close log_id => log_close w log_id
  | .log_contents log_id => do return (← log_contents w log_id).2
  | .log_write log_id priority cat func line => log_write w log_id priority cat func line
  | .log_write_direct log_id line => log_write_direct w log_id line

theorem valid_lt {log_id : Int} (h : valid log_id = true) : log_id.toNat < LOG_MAXLOGS := by
  simp only [valid, decide_eq_true_eq, not_or] at h
  omega

/-- A log with kept lines is emptied. -/
def Empties (w : Logger) : Call → Prop
  | .log_set_lines_kept log_id count =>
    valid log_id = true ∧ (w.loglist log_id.toNat).in_use = true ∧ count = 0 ∧
    (w.loglist log_id.toNat).entries ≠ 0
  | .log_close log_id =>
    valid log_id = true ∧ (w.loglist log_id.toNat).in_use = true ∧
    (w.loglist log_id.toNat).entries ≠ 0
  | _ => False

/-- A log without an open file loses its name. -/
def Unnames (w : Logger) : Call → Prop
  | .log_set_filename id filename =>
    valid id = true ∧ (w.loglist id.toNat).in_use = true ∧ (w.loglist id.toNat).logfile = none ∧
      (filename = none ∨ filename.map CString.bytes ≠ some [] ∧ w.answers.strdup 0 = false)
  | _ => False

/-- The log that this number names. -/
def slot_named (log_id : Int) : Option Nat := if valid log_id then some log_id.toNat else none

/-- The log that a call is about: the one that it names, or the one that it opens. -/
def Call.subject (w : Logger) : Call → Option Nat
  | .log_open filename => slot_named (Log.log_open w filename).1
  | .log_open_file file => slot_named (Log.log_open_file w file).1
  | .log_set_trigger id _ => slot_named id
  | .log_set_filename id _ => slot_named id
  | .log_set_archive_timestamp id _ => slot_named id
  | .log_set_lines_kept log_id _ => slot_named log_id
  | .log_set_level log_id _ => slot_named log_id
  | .log_reopen log_id => slot_named log_id
  | .log_close log_id => slot_named log_id
  | .log_contents log_id => slot_named log_id
  | .log_write log_id _ _ _ _ => slot_named log_id
  | .log_write_direct log_id _ => slot_named log_id

theorem slot_named_of_lt (h : id < LOG_MAXLOGS) : slot_named id = some id := by
  have hvalid : valid id = true := by
    simp only [valid, decide_eq_true_eq, not_or]
    omega
  rw [slot_named, if_pos hvalid, Int.toNat_natCast]

/-! ## What a call can do -/

/-- There is an open file, or a name to open one. -/
def Backed (log : log_t) : Prop := log.in_use = true → log.filename ≠ none ∨ log.logfile ≠ none

/-- What holds of every slot still does after a change to one of them. -/
theorem slots_put {P : Nat → log_t → Prop} (hslots : w'.loglist = Function.update w.loglist id log)
    (hlog : P id log) (h : ∀ j, P j (w.loglist j)) : ∀ j, P j (w'.loglist j) := by
  rw [hslots]
  exact (Function.forall_update_iff w.loglist P).mpr ⟨hlog, fun j _ => h j⟩

/-- The triggers of all logs are the same. -/
def SameTriggers (w w' : Logger) : Prop :=
  ∀ j, (w'.loglist j).trigger_level = (w.loglist j).trigger_level

theorem SameTriggers.trans {w'' : Logger} (h : SameTriggers w w') (h' : SameTriggers w' w'') :
    SameTriggers w w'' :=
  fun j => (h' j).trans (h j)

theorem triggers_same (w' : Logger) (hslots : w'.loglist = w.loglist) : SameTriggers w w' :=
  fun j => by rw [hslots]

theorem triggers_put (id : Nat) {log : log_t}
    (hslots : w'.loglist = Function.update w.loglist id log)
    (hlog : log.trigger_level = (w.loglist id).trigger_level) : SameTriggers w w' :=
  slots_put (P := fun j log' => log'.trigger_level = (w.loglist j).trigger_level) hslots hlog
    fun _ => rfl

theorem log_open_file_triggers (w : Logger) (file : Option FILE) :
    SameTriggers w (log_open_file w file).2 := by
  unfold log_open_file
  split_ifs
  · exact triggers_same _ rfl
  · rcases get_log_id_spec w with hid | ⟨i, -, -, hid⟩
    · rw [hid]
      exact triggers_same _ rfl
    · rw [hid]
      dsimp only
      rw [if_neg (Int.not_lt.mpr (Int.natCast_nonneg i)), Int.toNat_natCast, put_put]
      exact triggers_put i rfl rfl

theorem log_open_triggers (w : Logger) (filename : Option CString) :
    SameTriggers w (log_open w filename).2 := by
  unfold log_open
  cases filename with
  | none => exact triggers_same _ rfl
  | some filename =>
    dsimp only
    split_ifs with hempty hopen
    · exact triggers_same _ rfl
    · have hfile : SameTriggers w (log_open_file (w.fopen filename).2 (w.fopen filename).1).2 :=
        (triggers_same (w.fopen filename).2 rfl).trans (log_open_file_triggers _ _)
      generalize log_open_file (w.fopen filename).2 (w.fopen filename).1 = r at hfile ⊢
      refine hfile.trans ?_
      simp only [Logger.put, Logger.stat, Logger.strdup, Function.update_idem, Function.update_self]
      exact triggers_put r.1.toNat rfl rfl
    · exact (triggers_same (w.fopen filename).2 rfl).trans (log_open_file_triggers _ _)

theorem log_contents_same (log_id : Int) :
    Yields (log_contents w log_id) fun r => r.2.heap = w.heap ∧ r.2.loglist = w.loglist := by
  refine yields_ite (fun _ => yields_ok ⟨rfl, rfl⟩) fun _ => ?_
  dsimp only [Logger.malloc]
  split
  · exact yields_error _
  next hw =>
    obtain rfl := (Prod.mk.inj hw).2
    refine yields_ite (fun _ => yields_error _) fun _ => ?_
    exact yields_bind fun buf _ => yields_ok ⟨rfl, rfl⟩

theorem pre_of_length (date : CString) (priority : Nat) (cat func : CString) :
    (pre_of date priority cat func).bytes.length ≤ 255 := by
  refine (List.takeWhile_sublist _).length_le.trans ?_
  rw [List.length_take]
  exact Nat.min_le_left _ _

/-- Fields of one log are set, none of them of its list. Only a call that is made for it sets the
trigger, and only one that takes the name away can leave a log without a file. -/
structure Sets (w : Logger) (c : Call) (id : Nat) (log : log_t) (w' : Logger) : Prop where
  subject : c.subject w = some id
  heap : w'.heap = w.heap
  slots : w'.loglist = Function.update w.loglist id log
  list : SameList (w.loglist id) log
  files : Unnames w c ∨ (Backed (w.loglist id) → Backed log)
  trigger : (∃ trigger, c = .log_set_trigger id trigger) ∨
    log.trigger_level = (w.loglist id).trigger_level

inductive Does (w : Logger) (c : Call) : C Logger → Prop where
  | nothing {result : C Logger} (hsame : Yields result fun w' => w'.heap = w.heap ∧
      w'.loglist = w.loglist) : Does w c result
  | opens {i : Nat} {reset : Bool} {w' : Logger} (hsubject : c.subject w = some i)
      (hnew : NewLog w w' i reset) (htriggers : SameTriggers w w') : Does w c (.ok w')
  | sets {i : Nat} {log : log_t} {w' : Logger} (hsets : Sets w c i log w')
      (huse : log.in_use = (w.loglist i).in_use) : Does w c (.ok w')
  /-- The oldest lines go, behind such a change. -/
  | removes {i count : Nat} {log : log_t} {w1 : Logger} (hsets : Sets w c i log w1)
      (huse : log.in_use = (w.loglist i).in_use ∨ count = 0)
      (hempties : count ≠ 0 ∨ (w.loglist i).entries = 0 ∨ Empties w c) :
      Does w c (remove_entries w1 i count)
  | writes {i : Nat} {pre : CString} {line : Line} {w1 : Logger} (hsubject : c.subject w = some i)
      (hheap : w1.heap = w.heap) (hslots : w1.loglist = w.loglist) (hpre : pre.bytes.length ≤ 255) :
      Does w c (write_line w1 i pre line)

theorem does_nothing {c : Call} : Does w c (.ok w) := .nothing (yields_ok ⟨rfl, rfl⟩)

theorem does_ite {c : Call} {p : Prop} [Decidable p] {x y : C Logger} (hx : p → Does w c x)
    (hy : ¬ p → Does w c y) :
    Does w c (if p then x else y) := by
  split_ifs with h
  · exact hx h
  · exact hy h

theorem log_set_filename_does (w : Logger) (id : Int) (filename : Option CString) :
    Does w (.log_set_filename id filename) (.ok (log_set_filename w id filename).2) := by
  unfold log_set_filename
  split_ifs with hid hfail
  · exact does_nothing
  · rw [not_or, not_not] at hfail
    obtain ⟨hempty, huse⟩ := hfail
    have hloses (hnone : filename = none ∨ w.answers.strdup 0 = false) :
        Unnames w (.log_set_filename id filename) ∨ (w.loglist id.toNat).logfile ≠ none := by
      by_cases hfile : (w.loglist id.toNat).logfile = none
      · exact .inl ⟨hid, huse, hfile, hnone.imp_right fun hstrdup => ⟨hempty, hstrdup⟩⟩
      · exact .inr hfile
    cases filename with
    | none =>
      refine .sets ⟨if_pos hid, rfl, rfl, ⟨rfl, rfl, rfl, rfl⟩, ?_, .inr rfl⟩ rfl
      exact (hloses (.inl rfl)).imp_right fun hfile _ _ => .inr hfile
    | some filename =>
      refine @Does.sets w _ id.toNat { w.loglist id.toNat with filename := (w.strdup filename).1 } _
        ⟨if_pos hid, rfl, rfl, ⟨rfl, rfl, rfl, rfl⟩, ?_, .inr rfl⟩ rfl
      by_cases hstrdup : w.answers.strdup 0 = true
      · exact .inr fun _ _ => .inl (by simp [Logger.strdup, hstrdup])
      · exact (hloses (.inr (by simpa using hstrdup))).imp_right fun hfile _ _ => .inr hfile
  · exact does_nothing

/-- The state of `log_close` before the entries are removed. -/
theorem log_close_spec {log_id : Int} (hid : valid log_id = true)
    (huse : (w.loglist log_id.toNat).in_use = true) :
    ∃ w1 log, Sets w (.log_close log_id) log_id.toNat log w1 ∧
      log_close w log_id = remove_entries w1 log_id.toNat 0 := by
  unfold log_close
  rw [if_neg (not_not.mpr hid), if_neg (not_not.mpr huse)]
  dsimp only
  have hfree {log : log_t} (h : log.in_use = false) : Backed log :=
    fun hused => absurd (h.symm.trans hused) (by simp)
  split
  · refine ⟨_, { w.loglist log_id.toNat with in_use := false, level := 2, logfile := none }, ?_,
      rfl⟩
    refine ⟨if_pos hid, rfl, ?_, ⟨rfl, rfl, rfl, rfl⟩, .inr fun _ => hfree rfl, .inr rfl⟩
    simp [Logger.put, Logger.record]
  · refine ⟨_, { w.loglist log_id.toNat with in_use := false, level := 2 }, ?_, rfl⟩
    exact ⟨if_pos hid, rfl, rfl, ⟨rfl, rfl, rfl, rfl⟩, .inr fun _ => hfree rfl, .inr rfl⟩

theorem log_close_does (w : Logger) (log_id : Int) :
    Does w (.log_close log_id) (log_close w log_id) := by
  by_cases hlog : valid log_id = true ∧ (w.loglist log_id.toNat).in_use = true
  · obtain ⟨w1, log, hsets, hrun⟩ := log_close_spec hlog.1 hlog.2
    rw [hrun]
    refine .removes hsets (.inr rfl) (.inr ?_)
    by_cases hentries : (w.loglist log_id.toNat).entries = 0
    · exact .inl hentries
    · exact .inr ⟨hlog.1, hlog.2, hentries⟩
  · refine does_ite (fun _ => does_nothing) fun hid =>
      does_ite (fun _ => does_nothing) fun huse => ?_
    exact absurd ⟨not_not.mp hid, not_not.mp huse⟩ hlog

theorem log_set_lines_kept_does (w : Logger) (log_id : Int) (count : Nat) :
    Does w (.log_set_lines_kept log_id count) (log_set_lines_kept w log_id count) := by
  refine does_ite (fun _ => does_nothing) fun hid =>
    does_ite (fun _ => does_nothing) fun huse => ?_
  rw [not_not] at hid huse
  refine .removes ⟨if_pos hid, rfl, rfl, ⟨rfl, rfl, rfl, rfl⟩, .inr fun h => h, .inr rfl⟩
    (.inl rfl) ?_
  by_cases hcount : count = 0
  · by_cases hentries : (w.loglist log_id.toNat).entries = 0
    · exact .inr (.inl hentries)
    · exact .inr (.inr ⟨hid, huse, hcount, hentries⟩)
  · exact .inl hcount

theorem log_reopen_does (w : Logger) (log_id : Int) :
    Does w (.log_reopen log_id) (.ok (log_reopen w log_id)) := by
  unfold log_reopen
  split_ifs with hid
  · split
    next hname _ =>
      refine @Does.sets w _ log_id.toNat { w.loglist log_id.toNat with logfile := none } _
        ⟨if_pos hid, rfl, rfl, ⟨rfl, rfl, rfl, rfl⟩, .inr fun _ _ => .inl ?_, .inr rfl⟩ rfl
      simp [hname]
    · exact does_nothing
  · exact does_nothing

/-- **A call**: a free log is taken, fields of a log are set, its oldest lines go, a line is written
to it, or nothing happens to any list or log. -/
theorem call_does (w : Logger) (c : Call) : Does w c (call w c) := by
  cases c with
  | log_open filename =>
    rcases log_open_spec w filename with ⟨-, hsame⟩ | ⟨i, hi, hnew⟩
    · exact .nothing (yields_ok hsame)
    · exact .opens ((congrArg slot_named hi).trans (slot_named_of_lt hnew.valid)) hnew
        (log_open_triggers w filename)
  | log_open_file file =>
    rcases log_open_file_spec w file with ⟨-, hsame⟩ | ⟨i, hi, hnew⟩
    · exact .nothing (yields_ok (by rw [hsame]; exact ⟨rfl, rfl⟩))
    · exact .opens ((congrArg slot_named hi).trans (slot_named_of_lt hnew.valid)) hnew
        (log_open_file_triggers w file)
  | log_set_trigger id trigger =>
    change Does w _ (.ok (log_set_trigger w id trigger))
    unfold log_set_trigger
    split_ifs with hid
    · have hnat : (id.toNat : Int) = id := by
        have hvalid := hid.1
        simp only [valid, decide_eq_true_eq, not_or] at hvalid
        omega
      exact .sets ⟨if_pos hid.1, rfl, rfl, ⟨rfl, rfl, rfl, rfl⟩, .inr fun h => h,
        .inl ⟨trigger, by rw [hnat]⟩⟩ rfl
    · exact does_nothing
  | log_set_filename id filename => exact log_set_filename_does w id filename
  | log_set_archive_timestamp id value =>
    change Does w _ (.ok (log_set_archive_timestamp w id value).2)
    unfold log_set_archive_timestamp
    split_ifs with hid
    · exact .sets ⟨if_pos hid, rfl, rfl, ⟨rfl, rfl, rfl, rfl⟩, .inr fun h => h, .inr rfl⟩ rfl
    · exact does_nothing
  | log_set_lines_kept log_id count =>
    exact log_set_lines_kept_does w log_id count
  | log_set_level log_id level =>
    change Does w _ (.ok (log_set_level w log_id level))
    unfold log_set_level
    split_ifs with hid
    · exact .sets ⟨if_pos hid.1, rfl, rfl, ⟨rfl, rfl, rfl, rfl⟩, .inr fun h => h, .inr rfl⟩ rfl
    · exact does_nothing
  | log_reopen log_id => exact log_reopen_does w log_id
  | log_close log_id => exact log_close_does w log_id
  | log_contents log_id => exact .nothing ((log_contents_same log_id).bind fun r hr => yields_ok hr)
  | log_write log_id priority cat func line =>
    refine does_ite (fun _ => does_nothing) fun hid => does_ite (fun _ => does_nothing) fun _ =>
      does_ite (fun _ => does_nothing) fun _ => ?_
    exact @Does.writes w _ log_id.toNat _ line w.strftime.2 (if_pos (not_not.mp hid)) rfl rfl
      (pre_of_length w.strftime.1 priority cat func)
  | log_write_direct log_id line =>
    exact does_ite (fun _ => does_nothing) fun hid =>
      .writes (if_pos (not_not.mp hid)) rfl rfl (Nat.zero_le _)

/-! ## The lists -/

variable {lists : Nat → Kept}

theorem Sets.effect {c : Call} (h : Sets w c id log w') (hslot : Slot w.heap id (w.loglist id) l)
    (huse : log.in_use = (w.loglist id).in_use) : Effect w id l w' l := by
  refine touch_effect hslot h.heap h.slots h.list ?_
  rw [huse]
  exact hslot.unused

/-- The list is as it was, with its tail. -/
theorem Sets.listed {c : Call} (h : Sets w c id log w') (hslot : Slot w.heap id (w.loglist id) l) :
    Listed w'.heap (w'.loglist id) l ∧ Tailed w'.heap id (w'.loglist id) l ∧
      (Ended w id l → Ended w' id l) := by
  rw [Ended, Ended, Tailed, h.heap, h.slots, Function.update_self, h.list.tail]
  exact ⟨hslot.toListed.same h.list, hslot.tail, fun hended => hended⟩

/-- A log that is not in use has no lines, or all of them go. -/
theorem Sets.unused {c : Call} {count : Nat} (h : Sets w c id log w')
    (hslot : Slot w.heap id (w.loglist id) l)
    (huse : log.in_use = (w.loglist id).in_use ∨ count = 0)
    (hfree : (w'.loglist id).in_use = false) : l = [] ∨ count = 0 := by
  rw [h.slots, Function.update_self] at hfree
  exact huse.imp_left fun hsame => hslot.unused (hsame.symm.trans hfree)

theorem remove_entries_effect {count : Nat} (h : Listed w.heap (w.loglist id) l)
    (htail : Tailed w.heap id (w.loglist id) l)
    (hunused : (w.loglist id).in_use = false → l = [] ∨ count = 0) :
    Yields (remove_entries w id count) fun w' =>
      Effect w id l w' (l.drop (l.length - count)) ∧
        (Ended w id l → count ≠ 0 ∨ l = [] → Ended w' id (l.drop (l.length - count))) := by
  obtain ⟨w', hrun, htrimmed⟩ := remove_loop_spec count h.entries.ge h
  unfold remove_entries
  rw [hrun]
  exact yields_ok (trim_effect h htail hunused htrimmed)

/-- One list is changed, and its tail stays behind the last entry. -/
def Changes (w : Logger) (lists : Nat → Kept) (empties : Prop) (w' : Logger) : Prop :=
  ∃ id l, Effect w id (lists id) w' l ∧ (Ended w id (lists id) → ¬ empties → Ended w' id l)

theorem call_changes (h : Arranged w lists) (c : Call) :
    Yields (call w c) (Changes w lists (Empties w c)) := by
  suffices hall : ∀ result, Does w c result →
    Yields result (Changes w lists (Empties w c)) from hall _ (call_does w c)
  intro result hdoes
  cases hdoes with
  | nothing hsame =>
    intro w' hw'
    obtain ⟨hheap, hslots⟩ := hsame w' hw'
    refine ⟨0, lists 0, same_effect (h.slots 0) hheap hslots, fun hended _ => ?_⟩
    rw [Ended, hslots]
    exact hended
  | opens _ hnew _ =>
    obtain ⟨he, hended⟩ := hnew.effect (h.slots _)
    exact yields_ok ⟨_, _, he, fun ht _ => hended (.inr ht)⟩
  | sets hsets huse =>
    exact yields_ok ⟨_, _, hsets.effect (h.slots _) huse, fun ht _ =>
      (hsets.listed (h.slots _)).2.2 ht⟩
  | removes hsets huse hempties =>
    obtain ⟨hlisted, htailed, hended⟩ := hsets.listed (h.slots _)
    intro w' hw'
    obtain ⟨he, hkept⟩ :=
      remove_entries_effect hlisted htailed (hsets.unused (h.slots _) huse) w' hw'
    refine ⟨_, _, ⟨he.1, (touch_elsewhere hsets.heap hsets.slots).trans he.2⟩, fun ht hkeep =>
      hkept (hended ht) ?_⟩
    refine hempties.imp_right fun hnone => List.eq_nil_of_length_eq_zero ?_
    rw [← (h.slots _).entries]
    exact hnone.resolve_right hkeep
  | @writes id _ _ _ _ hheap hslots hpre =>
    have he := same_effect (h.slots id) hheap hslots
    intro w' hw'
    obtain ⟨l, he', hended⟩ := write_line_effect he.1 hpre w' hw'
    refine ⟨_, l, he.trans he', fun ht _ => hended ?_⟩
    rw [Ended, hslots]
    exact ht

theorem x_fits : (CString.cut (ascii "x")).bytes.length < LOG_MAXLINELEN := by decide

/-- Nothing fails. -/
def generous : Answers where
  calloc _ := true
  malloc _ := true
  strdup _ := true
  fopen n := some n
  stat _ := some 0
  fprintf _ text := text.length
  strftime _ := CString.cut (ascii "20240101_000000")

/-- After every run that does not fail. -/
theorem run_arranged (answers : Answers) (calls : List Call) :
    Yields (calls.foldlM call (Log.log_initialize answers)) fun w => ∃ lists, Arranged w lists := by
  refine run_yields (fun w => ∃ lists, Arranged w lists) ?_ ⟨_, initialize_arranged answers⟩
  rintro c - w ⟨lists, h⟩ w' hw'
  obtain ⟨id, l, he, -⟩ := call_changes h c w' hw'
  exact ⟨_, h.step he⟩

end Log
