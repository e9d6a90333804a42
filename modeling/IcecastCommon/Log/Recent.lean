import IcecastCommon.Log.Run
import Mathlib.Data.List.DropRight

/-!
# The most recent lines

Between `log_open` and the end of its use, a log that is only written to, and that always keeps at
least one line, keeps the most recent ones.
-/

namespace Log

open Lib

variable {w w' : Logger} {id : Nat} {l : Kept} {written : List Bytes}

def texts (l : Kept) : List Bytes := l.map fun e => e.2.bytes

@[simp] theorem texts_append (l l' : Kept) : texts (l ++ l') = texts l ++ texts l' :=
  List.map_append

@[simp] theorem texts_length (l : Kept) : (texts l).length = l.length := List.length_map _

/-- The line that a call writes, if the log can be opened. -/
def line_of (w : Logger) : Call → Option CString
  | .log_write log_id priority cat func line =>
    if (w.loglist log_id.toNat).level < priority ∨ priority = 0 ∨ priority > prior.length then none
    else if (_log_open w.strftime.2 log_id.toNat).1 = 0 then none
    else some (text_of (pre_of w.strftime.1 priority cat func) line.text)
  | .log_write_direct log_id line =>
    if (_log_open w log_id.toNat).1 = 0 then none else some (text_of (.cut []) line.text)
  | _ => none

/-- The calls on one log that write a line, or keep at least one. -/
def Keeps (id : Int) : Call → Prop
  | .log_write log_id _ _ _ _ => log_id = id
  | .log_write_direct log_id _ => log_id = id
  | .log_set_lines_kept log_id count => log_id = id ∧ 1 ≤ count
  | _ => False

/-- A log in use, with memory for all that comes, and the lines that were written since it was
opened. -/
structure Keeping (id : Nat) (written : List Bytes) (w : Logger) (l : Kept) : Prop where
  slot : Slot w.heap id (w.loglist id) l
  ended : Ended w id l
  in_use : (w.loglist id).in_use = true
  backed : (w.loglist id).filename ≠ none ∨ (w.loglist id).logfile ≠ none
  bounded : l.length ≤ (w.loglist id).keep_entries
  calloc : ∀ n, w.answers.calloc n = true
  malloc : ∀ n, w.answers.malloc n = true
  recent : texts l <:+ written
  nonempty : ∀ e ∈ l, e.2.bytes ≠ []

theorem suffix_snoc {α : Type} {l l' : List α} (h : l <:+ l') (a : α) : l ++ [a] <:+ l' ++ [a] := by
  obtain ⟨older, rfl⟩ := h
  exact ⟨older, (List.append_assoc older l [a]).symm⟩

theorem texts_appended (keep : Nat) (e : Nat × CString) (h : texts l <:+ written) :
    texts (appended keep l e) <:+ written ++ [e.2.bytes] := by
  have hall : texts (l ++ [e]) <:+ written ++ [e.2.bytes] := by
    rw [texts_append]
    exact suffix_snoc h _
  unfold appended
  split_ifs
  · refine List.IsSuffix.trans ?_ hall
    rw [texts, List.map_tail]
    exact List.tail_suffix _
  · exact hall

theorem appended_length {keep : Nat} (e : Nat × CString) (h : l.length ≤ keep) :
    (appended keep l e).length = min (l.length + 1) keep := by
  unfold appended
  split_ifs <;> simp <;> omega

/-- Neither the list nor the number of lines to keep is changed. -/
theorem Keeping.same {log : log_t} (h : Keeping id written w l) (hheap : w'.heap = w.heap)
    (hslots : w'.loglist = Function.update w.loglist id log) (hs : SameList (w.loglist id) log)
    (huse : log.in_use = true) (hbacked : log.filename ≠ none ∨ log.logfile ≠ none)
    (hkeep : log.keep_entries = (w.loglist id).keep_entries)
    (hcalloc : w'.answers.calloc = w.answers.calloc)
    (hmalloc : w'.answers.malloc = w.answers.malloc) : Keeping id written w' l := by
  have hlog : w'.loglist id = log := by
    rw [hslots, Function.update_self]
  refine ⟨(touch_effect h.slot hheap hslots hs ?_).1, ?_, ?_, ?_, ?_, ?_, ?_, h.recent, h.nonempty⟩
  · intro hfree
    exact absurd (huse.symm.trans hfree) (by simp)
  · rw [Ended, hlog, hs.tail]
    exact h.ended
  · rw [hlog]
    exact huse
  · rw [hlog]
    exact hbacked
  · rw [hlog, hkeep]
    exact h.bounded
  · rw [hcalloc]
    exact h.calloc
  · rw [hmalloc]
    exact h.malloc

/-! ## Writing -/

theorem line_nonempty (pre line : CString) : (text_of pre line).bytes ≠ [] := by simp [text_of]

/-- A line is kept, or none is kept at all. -/
theorem create_log_entry_keeping {pre line : CString} (h : Keeping id written w l)
    (hfile : (w.loglist id).logfile ≠ none) (hfits : (text_of pre line).bytes.length + 1 < 2 ^ 32) :
    ∃ r l', create_log_entry w id pre line = .ok r ∧
      Keeping id (written ++ [(text_of pre line).bytes]) r.2 l' ∧
      lines r.2.events = lines w.events ++ [(text_of pre line).bytes] ∧
      l'.length = min (l.length + 1) (w.loglist id).keep_entries ∧
      (r.2.loglist id).keep_entries = (w.loglist id).keep_entries := by
  obtain ⟨file, hfile⟩ := Option.ne_none_iff_exists'.mp hfile
  have hlines (text : Bytes) :
      lines (w.events ++ [.fprintf file text]) = lines w.events ++ [text] := by
    simp [lines]
  by_cases hkeep : (w.loglist id).keep_entries = 0
  · have hnil : l = [] := by
      rw [← List.length_eq_zero_iff, ← Nat.le_zero, ← hkeep]
      exact h.bounded
    have hentry :
        create_log_entry w id pre line = w.fprintf (some file) (text_of pre line).bytes := by
      unfold create_log_entry
      rw [if_pos hkeep, hfile]
      rfl
    refine ⟨_, l, hentry,
      ⟨h.slot, h.ended, h.in_use, h.backed, h.bounded, h.calloc, h.malloc, ?_, h.nonempty⟩,
      hlines _, ?_, rfl⟩
    · rw [hnil]
      exact List.nil_suffix
    · rw [hnil, hkeep]
      rfl
  · obtain ⟨w', log, hentry, he, hended, hanswers, hevents, hslots, hs⟩ :=
      create_log_entry_kept h.slot h.in_use hkeep hfile (h.calloc 0) (h.malloc 0) hfits h.ended
    have hlog : w'.loglist id = log := by
      rw [hslots, Function.update_self]
    refine ⟨_, _, hentry, ⟨he.1, hended, ?_, ?_, ?_, ?_, ?_, texts_appended _ _ h.recent, ?_⟩, ?_,
      appended_length _ h.bounded, ?_⟩
    · rw [hlog, hs.in_use]
      exact h.in_use
    · rw [hlog, hs.filename, hs.logfile]
      exact h.backed
    · rw [hlog, hs.keep_entries, appended_length _ h.bounded]
      exact Nat.min_le_right _ _
    · intro n
      rw [hanswers]
      exact h.calloc (n + 1)
    · intro n
      rw [hanswers]
      exact h.malloc (n + 1)
    · intro e he'
      have hmem := (appended_sublist _ l _).subset he'
      rw [List.mem_append, List.mem_singleton] at hmem
      rcases hmem with hmem | rfl
      · exact h.nonempty e hmem
      · exact line_nonempty pre line
    · rw [hevents]
      exact hlines _
    · rw [hlog]
      exact hs.keep_entries

theorem Opened.keeping {ret : Int} (ho : Opened w w' id ret) (h : Keeping id written w l) :
    Keeping id written w' l ∧ (w'.loglist id).keep_entries = (w.loglist id).keep_entries ∧
      (ret ≠ 0 → (w'.loglist id).logfile ≠ none) := by
  obtain ⟨logfile, size, hslots, hname, hopened⟩ := ho.slot
  have hlog : w'.loglist id = { w.loglist id with logfile := logfile, size := size } := by
    rw [hslots, Function.update_self]
  refine ⟨h.same ho.heap hslots ⟨rfl, rfl, rfl, rfl⟩ h.in_use ?_ rfl ho.calloc ho.malloc, ?_,
    fun hret => ?_⟩
  · by_cases hnone : (w.loglist id).filename = none
    · refine .inr ?_
      change logfile ≠ none
      rw [hname hnone]
      exact h.backed.resolve_left (not_not.mpr hnone)
    · exact .inl hnone
  · rw [hlog]
  · rw [hlog]
    intro hnone
    obtain ⟨hfilename, hlogfile⟩ := (hopened hret).2.mp hnone
    exact h.backed.elim (absurd hfilename) (absurd hlogfile)

/-- A line that was written since the log was opened. -/
theorem write_line_keeping {pre : CString} {line : Line} (h : Keeping id written w l)
    (hpre : pre.bytes.length ≤ 255) :
    ∃ w' l', write_line w id pre line = .ok w' ∧
      ((_log_open w id).1 = 0 ∧ Keeping id written w' l' ∧ lines w'.events = lines w.events ∧
      l'.length = l.length ∨
        (_log_open w id).1 ≠ 0 ∧ Keeping id (written ++ [(text_of pre line.text).bytes]) w' l' ∧
        lines w'.events = lines w.events ++ [(text_of pre line.text).bytes] ∧
        l'.length = min (l.length + 1) (w.loglist id).keep_entries) := by
  have ho := _log_open_spec w id
  unfold write_line
  generalize _log_open w id = opened at ho ⊢
  obtain ⟨opened, w1⟩ := opened
  obtain ⟨h1, hkeep1, hfile⟩ := ho.keeping h
  by_cases hopen : opened = 0
  · refine ⟨w1, l, ?_, .inl ⟨hopen, h1, ho.lines, rfl⟩⟩
    dsimp only
    rw [if_pos hopen]
    rfl
  · obtain ⟨⟨len, w2⟩, l', hentry, h2, hlines, hlength, -⟩ :=
      create_log_entry_keeping h1 (hfile hopen) (text_fits hpre line)
    have hlines' : lines w2.events = lines w.events ++ [(text_of pre line.text).bytes] := by
      rw [← ho.lines]
      exact hlines
    rw [hkeep1] at hlength
    dsimp only
    rw [if_neg hopen]
    by_cases hlen : len > 0
    · refine ⟨w2.put id fun log => { log with size := log.size + len }, l', run_bind hentry ?_,
        .inr ⟨hopen, ?_, hlines', hlength⟩⟩
      · dsimp only
        rw [if_pos hlen]
        rfl
      · exact h2.same rfl rfl ⟨rfl, rfl, rfl, rfl⟩ h2.in_use h2.backed rfl rfl rfl
    · refine ⟨w2, l', run_bind hentry ?_, .inr ⟨hopen, h2, hlines', hlength⟩⟩
      dsimp only
      rw [if_neg hlen]
      rfl

/-! ## Calls -/

/-- How many lines are kept after a call. -/
def entries_after (w : Logger) (id : Nat) : Call → Nat
  | .log_set_lines_kept _ count => min (w.loglist id).entries count
  | c =>
    if (line_of w c).isSome then min ((w.loglist id).entries + 1) (w.loglist id).keep_entries
    else (w.loglist id).entries

/-- What a written line, or the lack of one, makes of a log and of the lines. -/
structure Writes (id : Nat) (written : List Bytes) (w : Logger) (line : Option CString)
    (entries : Nat) (w' : Logger) : Prop where
  keeping : ∃ l, Keeping id (written ++ (line.map CString.bytes).toList) w' l
  lines : lines w'.events = lines w.events ++ (line.map CString.bytes).toList
  entries : (w'.loglist id).entries = entries

theorem log_set_lines_kept_keeping {count : Nat} (h : Keeping id written w l)
    (hid : valid id = true) (hcount : 1 ≤ count) :
    ∃ w' l', log_set_lines_kept w id count = .ok w' ∧ Keeping id written w' l' ∧
      lines w'.events = lines w.events ∧
      l'.length = min l.length count := by
  obtain ⟨w1, hw1⟩ : ∃ w1, w1 = w.put id fun log => { log with keep_entries := count } := ⟨_, rfl⟩
  have hheap : w1.heap = w.heap := by rw [hw1, put_heap]
  have hslots :
      w1.loglist = Function.update w.loglist id { w.loglist id with keep_entries := count } := by
    rw [hw1, Logger.put]
  have hlog : w1.loglist id = { w.loglist id with keep_entries := count } := by
    rw [hw1, put_self]
  have he := touch_effect h.slot hheap hslots ⟨rfl, rfl, rfl, rfl⟩ h.slot.unused
  have hended : Ended w1 id l := by
    rw [Ended, hlog]
    exact h.ended
  obtain ⟨w', hrun, htrim⟩ := remove_loop_spec count he.1.entries.ge he.1.toListed
  obtain ⟨he', hended'⟩ :=
    trim_effect he.1.toListed he.1.tail (fun hfree => .inl (he.1.unused hfree)) htrim
  have hlength : (l.drop (l.length - count)).length = min l.length count := by
    rw [List.length_drop]
    omega
  obtain ⟨heap, head, rfl, -, -⟩ := htrim
  refine ⟨_, _, ?_, ⟨he'.1, hended' hended (.inl (by omega)), ?_, ?_, ?_, ?_, ?_, ?_, ?_⟩, ?_,
    hlength⟩
  · unfold log_set_lines_kept
    rw [if_neg (not_not.mpr hid), Int.toNat_natCast, if_neg (by simp [h.in_use]), ← hw1]
    exact hrun
  · rw [put_self, relisted]
    change (w1.loglist id).in_use = true
    rw [hlog]
    exact h.in_use
  · rw [put_self, relisted]
    change (w1.loglist id).filename ≠ none ∨ (w1.loglist id).logfile ≠ none
    rw [hlog]
    exact h.backed
  · rw [hlength, put_self, relisted]
    change _ ≤ (w1.loglist id).keep_entries
    rw [hlog]
    exact Nat.min_le_right _ _
  · rw [hw1]
    exact h.calloc
  · rw [hw1]
    exact h.malloc
  · rw [texts, List.map_drop]
    exact (List.drop_suffix _ _).trans h.recent
  · intro e hmem
    exact h.nonempty e (List.mem_of_mem_drop hmem)
  · rw [hw1]
    rfl

theorem write_line_writes {pre : CString} {line : Line} {text : Option CString}
    (h : Keeping id written w l) (hpre : pre.bytes.length ≤ 255)
    (htext : text = if (_log_open w id).1 = 0 then none else some (text_of pre line.text)) :
    ∃ w', write_line w id pre line = .ok w' ∧
      Writes id written w text
        (if text.isSome then min ((w.loglist id).entries + 1) (w.loglist id).keep_entries
          else (w.loglist id).entries) w' := by
  obtain ⟨w', l', hrun, ⟨hopen, h', hlines, hlength⟩ | ⟨hopen, h', hlines, hlength⟩⟩ :=
    write_line_keeping h hpre
  · rw [if_pos hopen] at htext
    refine ⟨w', hrun, ⟨l', ?_⟩, ?_, ?_⟩ <;> rw [htext]
    · simpa using h'
    · simpa using hlines
    · rw [h'.slot.entries, hlength, h.slot.entries]
      rfl
  · rw [if_neg hopen] at htext
    refine ⟨w', hrun, ⟨l', ?_⟩, ?_, ?_⟩ <;> rw [htext]
    · exact h'
    · exact hlines
    · rw [h'.slot.entries, hlength, h.slot.entries]
      rfl

theorem no_line_writes {entries : Nat} (h : Keeping id written w l)
    (hentries : (w.loglist id).entries = entries) :
    Writes id written w none entries w := by
  refine ⟨⟨l, ?_⟩, ?_, hentries⟩
  · simpa using h
  · simp

/-- The date has nothing to do with the log. -/
theorem strftime_keeping (h : Keeping id written w l) : Keeping id written w.strftime.2 l := by
  have hslots : w.strftime.2.loglist = Function.update w.loglist id (w.loglist id) :=
    (Function.update_eq_self id w.loglist).symm
  exact h.same rfl hslots ⟨rfl, rfl, rfl, rfl⟩ h.in_use h.backed rfl rfl rfl

theorem log_write_keeping {priority : Nat} {cat func : CString} {line : Line}
    {text : Option CString} (h : Keeping id written w l) (hid : valid id = true)
    (htext : text = line_of w (.log_write id priority cat func line)) :
    ∃ w', log_write w id priority cat func line = .ok w' ∧
      Writes id written w text
        (if text.isSome then min ((w.loglist id).entries + 1) (w.loglist id).keep_entries
          else (w.loglist id).entries) w' := by
  unfold log_write
  rw [if_neg (not_not.mpr hid)]
  rw [line_of, Int.toNat_natCast] at htext
  rw [Int.toNat_natCast]
  by_cases hlevel : (w.loglist id).level < priority
  · rw [if_pos (.inl hlevel)] at htext
    rw [if_pos hlevel, htext]
    exact ⟨w, rfl, no_line_writes h rfl⟩
  · rw [if_neg hlevel]
    by_cases hpriority : priority = 0 ∨ priority > prior.length
    · rw [if_pos (.inr hpriority)] at htext
      rw [if_pos hpriority, htext]
      exact ⟨w, rfl, no_line_writes h rfl⟩
    · rw [if_neg (not_or.mpr ⟨hlevel, hpriority⟩)] at htext
      rw [if_neg hpriority]
      obtain ⟨w', hrun, hwrites⟩ :=
        write_line_writes (strftime_keeping h) (pre_of_length w.strftime.1 priority cat func) htext
      exact ⟨w', hrun, hwrites.keeping, hwrites.lines, hwrites.entries⟩

theorem log_write_direct_keeping {line : Line} {text : Option CString} (h : Keeping id written w l)
    (hid : valid id = true) (htext : text = line_of w (.log_write_direct id line)) :
    ∃ w', log_write_direct w id line = .ok w' ∧
      Writes id written w text
        (if text.isSome then min ((w.loglist id).entries + 1) (w.loglist id).keep_entries
          else (w.loglist id).entries) w' := by
  unfold log_write_direct
  rw [if_neg (not_not.mpr hid)]
  exact write_line_writes h (Nat.zero_le _) htext

theorem call_keeping {c : Call} (h : Keeping id written w l) (hid : valid id = true)
    (hc : Keeps id c) :
    ∃ w', call w c = .ok w' ∧ Writes id written w (line_of w c) (entries_after w id c) w' := by
  cases c with
  | log_set_lines_kept log_id count =>
    obtain ⟨rfl, hcount⟩ := hc
    obtain ⟨w', l', hrun, h', hlines, hlength⟩ := log_set_lines_kept_keeping h hid hcount
    refine ⟨w', hrun, ⟨l', ?_⟩, ?_, ?_⟩
    · simpa [line_of] using h'
    · simpa [line_of] using hlines
    · rw [h'.slot.entries, hlength, entries_after, h.slot.entries]
  | log_write log_id priority cat func line =>
    obtain rfl := hc
    exact log_write_keeping h hid rfl
  | log_write_direct log_id line =>
    obtain rfl := hc
    exact log_write_direct_keeping h hid rfl
  | _ => exact hc.elim

theorem run_keeping {calls : List Call} (h : Keeping id written w l) (hid : valid id = true)
    (hcalls : ∀ c ∈ calls, Keeps id c) :
    ∃ w' l' new, calls.foldlM call w = .ok w' ∧ Keeping id (written ++ new) w' l' ∧
      lines w'.events = lines w.events ++ new := by
  induction calls generalizing w l written with
  | nil =>
    refine ⟨w, l, [], rfl, ?_, ?_⟩
    · rw [List.append_nil]
      exact h
    · rw [List.append_nil]
  | cons c calls ih =>
    obtain ⟨w1, hrun1, hwrites⟩ := call_keeping h hid (hcalls c (by simp))
    obtain ⟨l1, h1⟩ := hwrites.keeping
    obtain ⟨w', l', new, hrun, h', hlines⟩ := ih h1 fun c hc => hcalls c (List.mem_cons_of_mem _ hc)
    refine ⟨w', l', ((line_of w c).map CString.bytes).toList ++ new, ?_, ?_, ?_⟩
    · rw [List.foldlM_cons, hrun1, ok_bind]
      exact hrun
    · rw [← List.append_assoc]
      exact h'
    · rw [hlines, hwrites.lines, List.append_assoc]

/-! ## Reading -/

/-- The text replaces the NUL behind what is there. -/
theorem snprintf_behind {room size : Nat} {done text : Bytes} (hsize : text.length < size)
    (hroom : done.length + text.length + 1 ≤ room) :
    snprintf room (done ++ [0]) done.length size text = .ok (done ++ text ++ [0]) := by
  have htake : text.take (size - 1) = text := List.take_of_length_le (by omega)
  unfold snprintf
  rw [if_neg (by omega), htake]
  dsimp only
  rw [if_pos (by simp; omega)]
  simp

theorem contents_loop_spec {heap : Heap log_entry_t} {p : Ptr} {fuel room : Nat} {done : Bytes}
    {remain : Int} (hlist : List_at heap p l) (hfuel : l.length < fuel)
    (hroom : done.length + total_of l + 1 ≤ room) (hremain : total_of l + 1 ≤ remain)
    (hfits : remain < 2 ^ 31) :
    contents_loop heap room fuel p (done ++ [0]) done.length remain =
      .ok (done ++ (texts l).flatten ++ [0]) := by
  induction l generalizing p fuel done remain with
  | nil =>
    cases hlist
    simp [contents_loop, texts]
  | cons e l ih =>
    obtain ⟨fuel, rfl⟩ : ∃ n, fuel = n + 1 := Nat.exists_eq_succ_of_ne_zero (by omega)
    rw [List.length_cons] at hfuel
    obtain ⟨rfl, x, hget, hx, hrest⟩ := hlist
    rw [total_of_cons] at hroom hremain
    have hsize : (remain % 2 ^ 64).toNat = remain.toNat := by omega
    unfold contents_loop
    refine run_bind (Heap.load_eq hget) ?_
    rw [hx.line]
    refine run_bind (cstring_append e.2.nulFree []) ?_
    rw [hsize]
    refine run_bind (snprintf_behind (by omega) (by omega)) ?_
    have hdone : (done ++ e.2.bytes).length = done.length + e.2.bytes.length := List.length_append
    have hall :
        done ++ (texts (e :: l)).flatten ++ [0] = done ++ e.2.bytes ++
        (texts l).flatten ++ [0] := by
      simp [texts]
    rw [hall]
    by_cases hempty : e.2.bytes.length > 0
    · rw [if_pos hempty, ← hdone]
      exact ih hrest (by omega) (by omega) (by omega) (by omega)
    · -- Nothing is added to the text, and `ptr` stays where it is.
      rw [if_neg hempty]
      have hnil : e.2.bytes = [] := List.length_eq_zero_iff.mp (by omega)
      rw [hnil, List.append_nil]
      exact ih hrest (by omega) (by omega) (by omega) (by omega)

theorem int_small {n : Nat} (h : n < 2 ^ 31) : int n = n := wrap_of_fits (by omega) (by omega)

theorem int_large {n : Nat} (h : 2 ^ 31 ≤ n) (h' : n < 2 ^ 32) : int n = n - 2 ^ 32 := by
  unfold int
  rw [Int.bmod_def]
  split_ifs <;> omega

theorem total_of_eq (l : Kept) : total_of l = (texts l).flatten.length + l.length := by
  induction l with
  | nil => rfl
  | cons e l ih =>
    have htexts :
        (texts (e :: l)).flatten.length = e.2.bytes.length + (texts l).flatten.length := by
      simp [texts]
    rw [total_of_cons, htexts, ih, List.length_cons]
    omega

theorem length_le_texts (h : ∀ e ∈ l, e.2.bytes ≠ []) : l.length ≤ (texts l).flatten.length := by
  induction l with
  | nil => exact Nat.zero_le _
  | cons e l ih =>
    have hpos := List.length_pos_of_ne_nil (h e (by simp))
    have hrest := ih fun e' he' => h e' (List.mem_cons_of_mem _ he')
    have htexts :
        (texts (e :: l)).flatten.length = e.2.bytes.length + (texts l).flatten.length := by
      simp [texts]
    rw [List.length_cons, htexts]
    omega

theorem Listed.length_le {heap : Heap log_entry_t} {log : log_t} (h : Listed heap log l) :
    l.length ≤ heap.size := by
  have hsub : addresses l ⊆ List.range heap.size := fun a ha => List.mem_range.mpr (h.list.lt ha)
  have hle := List.Nodup.length_le_of_subset h.nodup hsub
  rw [List.length_range, addresses, List.length_map] at hle
  exact hle

/-- The sum of the `len` fields of the entries. -/
def sum_of_lens (heap : Heap log_entry_t) (l : Kept) : Nat :=
  ((addresses l).map fun a => ((heap.get a).map log_entry_t.len).getD 0).sum

theorem sum_of_lens_eq {heap : Heap log_entry_t} {p : Ptr} (h : List_at heap p l) :
    sum_of_lens heap l = total_of l := by
  induction l generalizing p with
  | nil => rfl
  | cons e l ih =>
    obtain ⟨-, x, hget, hx, hrest⟩ := h
    rw [total_of_cons, ← ih hrest, ← hx.len]
    simp [sum_of_lens, hget]

theorem log_contents_spec (h : Listed w.heap (w.loglist id) l) (hid : valid id = true)
    (hmalloc : w.answers.malloc 0 = true) (htotal : (w.loglist id).total = total_of l)
    (hfits : total_of l + 1 < 2 ^ 31) :
    ∃ w', log_contents w id = .ok (some ((texts l).flatten ++ [0], (w.loglist id).total), w') := by
  have hsmall := int_small hfits
  have hroom : ((int (total_of l + 1)) % 2 ^ 64).toNat = total_of l + 1 := by omega
  have hloop :
    contents_loop w.heap (total_of l + 1) (w.heap.size + 1) (w.loglist id).log_head ([] ++ [0]) 0
      ((total_of l + 1 : Nat) : Int) = _ :=
    contents_loop_spec h.list (Nat.lt_succ_of_le h.length_le) (by simp) (by omega) (by omega)
  unfold log_contents
  rw [if_neg (not_not.mpr hid)]
  simp only [Int.toNat_natCast, htotal, hroom,
    malloc_grants hmalloc (show total_of l + 1 < 2 ^ 63 by omega)]
  rw [if_neg (Nat.succ_ne_zero _), hsmall, Nat.mod_eq_of_lt (by omega)]
  exact ⟨_, run_bind hloop rfl⟩

theorem log_contents_large (hid : valid id = true) (htotal : (w.loglist id).total = total_of l)
    (hlarge : 2 ^ 31 ≤ total_of l + 1) (hfits : total_of l + 1 < 2 ^ 32) :
    log_contents w id = .error .null := by
  have hroom : ((int (total_of l + 1)) % 2 ^ 64).toNat ≥ 2 ^ 63 := by
    rw [int_large hlarge hfits]
    omega
  unfold log_contents
  rw [if_neg (not_not.mpr hid)]
  simp only [Int.toNat_natCast, htotal, Logger.malloc, decide_eq_false (Nat.not_lt.mpr hroom),
    Bool.and_false]
  rfl

theorem texts_nul_free (l : Kept) : 0 ∉ (texts l).flatten := by
  intro h
  obtain ⟨text, htext, hmem⟩ := List.mem_flatten.mp h
  obtain ⟨e, -, rfl⟩ := List.mem_map.mp htext
  exact e.2.nulFree hmem

/-! ## Runs -/

/-- The list of a log, in the state `w`, is the end of what was written. -/
structure Recent (w : Logger) (id : Int) (written : List Bytes) (l : Kept) : Prop where
  list : List_at w.heap (w.loglist id.toNat).log_head l
  nodup : (addresses l).Nodup
  entries : (w.loglist id.toNat).entries = l.length
  recent : texts l = written.rtake (w.loglist id.toNat).entries

/-- What `log_contents` returns for the list. -/
structure Contents (w : Logger) (id : Int) (l : Kept) : Prop where
  total : (w.loglist id.toNat).total = sum_of_lens w.heap l
  stored : ∀ r, log_contents w id = .ok r →
    ∃ contents, r.1 = some (contents, (w.loglist id.toNat).total) ∧
    cstring contents = .ok (texts l).flatten ∧ contents.length ≤ (w.loglist id.toNat).total + 1
  returns : (w.loglist id.toNat).total + 1 < 2 ^ 31 → ∃ r, log_contents w id = .ok r

theorem Keeping.recent_lines (h : Keeping id written w l) : Recent w id written l := by
  refine ⟨h.slot.list, h.slot.nodup, h.slot.entries, ?_⟩
  rw [Int.toNat_natCast, h.slot.entries, List.rtake]
  have hdrop := List.suffix_iff_eq_drop.mp h.recent
  rw [texts_length] at hdrop
  exact hdrop

theorem Keeping.contents (h : Keeping id written w l) (hid : valid id = true)
    (hsmall : (texts l).flatten.length < 2 ^ 31) : Contents w id l := by
  have hle := length_le_texts h.nonempty
  have hsum := total_of_eq l
  have htotal : (w.loglist id).total = total_of l := by
    rw [h.slot.total]
    exact Nat.mod_eq_of_lt (by omega)
  have hreturns (hfits : total_of l + 1 < 2 ^ 31) :=
    log_contents_spec h.slot.toListed hid (h.malloc 0) htotal hfits
  refine ⟨?_, fun r hr => ?_, fun hfits => ?_⟩
  · rw [sum_of_lens_eq h.slot.list]
    exact htotal
  · by_cases hfits : total_of l + 1 < 2 ^ 31
    · obtain ⟨w', hrun⟩ := hreturns hfits
      obtain rfl := Except.ok.inj (hr.symm.trans hrun)
      refine ⟨_, rfl, cstring_append (texts_nul_free l) [], ?_⟩
      rw [Int.toNat_natCast, htotal, List.length_append, List.length_singleton]
      omega
    · rw [log_contents_large hid htotal (by omega) (by omega)] at hr
      exact absurd hr (by simp)
  · rw [Int.toNat_natCast, htotal] at hfits
    obtain ⟨w', hrun⟩ := hreturns hfits
    exact ⟨_, hrun⟩

/-- A log that was just opened has memory of nothing. -/
theorem opened_keeping {w0 : Logger} {lists : Nat → Kept} (h : Arranged w0 lists)
    (hn : NewLog w0 w id true) (hcalloc : ∀ n, w.answers.calloc n = true)
    (hmalloc : ∀ n, w.answers.malloc n = true) : Keeping id [] w [] := by
  obtain ⟨log, hslots, huse, hfile, -⟩ := hn.slot
  obtain ⟨he, hended⟩ := hn.effect (h.slots id)
  have hnil : lists id = [] := (h.slots id).unused hn.free
  have hlog : w.loglist id = log := by
    rw [hslots, Function.update_self]
  rw [hnil] at he hended
  refine ⟨he.1, hended (.inl rfl), ?_, .inr ?_, Nat.zero_le _, hcalloc, hmalloc,
    List.nil_suffix, by simp⟩
  · rw [hlog]
    exact huse
  · rw [hlog]
    exact hfile

/-- A log keeps the most recent lines, whatever came before it was opened. -/
theorem recent_lines_kept {answers : Answers} {history : List Call} {w0 w : Logger}
    {filename : Option CString} {id : Int} {calls : List Call}
    (hhistory : history.foldlM call (Log.log_initialize answers) = .ok w0)
    (hopen : log_open w0 filename = (id, w)) (hid : 0 ≤ id)
    (hcalloc : ∀ n, w.answers.calloc n = true) (hmalloc : ∀ n, w.answers.malloc n = true)
    (hcalls : ∀ c ∈ calls, Keeps id c) :
    ∃ w' written l, calls.foldlM call w = .ok w' ∧ lines w'.events = lines w.events ++ written ∧
      Recent w' id written l ∧ ((texts l).flatten.length < 2 ^ 31 → Contents w' id l) ∧
      ∀ c, Keeps id c → ∃ w'', call w' c = .ok w'' ∧
        lines w''.events = lines w'.events ++ ((line_of w' c).map CString.bytes).toList ∧
        (w''.loglist id.toNat).entries = entries_after w' id.toNat c := by
  obtain ⟨lists, harranged⟩ := run_arranged answers history w0 hhistory
  rcases log_open_spec w0 filename with ⟨hneg, -⟩ | ⟨i, hi, hnew⟩
  · rw [hopen] at hneg
    exact absurd hid (Int.not_le.mpr hneg)
  · rw [hopen] at hi hnew
    obtain rfl : id = i := hi
    have hvalid : valid i = true := by
      have := hnew.valid
      simp only [valid, decide_eq_true_eq, not_or]
      omega
    obtain ⟨w', l, written, hrun, hkeeping, hlines⟩ :=
      run_keeping (opened_keeping harranged hnew hcalloc hmalloc) hvalid hcalls
    rw [List.nil_append] at hkeeping
    refine ⟨w', written, l, hrun, hlines, hkeeping.recent_lines, hkeeping.contents hvalid,
      fun c hc => ?_⟩
    obtain ⟨w'', hcall, hwrites⟩ := call_keeping hkeeping hvalid hc
    exact ⟨w'', hcall, hwrites.lines, hwrites.entries⟩

/-- Of three lines, two are kept. -/
def three : List Call :=
  [.log_set_lines_kept 0 2, .log_write_direct 0 ⟨.cut (ascii "x"), x_fits⟩,
    .log_write_direct 0 ⟨.cut (ascii "y"), by decide⟩,
    .log_write_direct 0 ⟨.cut (ascii "z"), by decide⟩]

theorem recent_lines_kept_three : ∃ w' l,
    three.foldlM call (log_open (Log.log_initialize generous) (some (.cut (ascii "a")))).2 =
      .ok w' ∧
      Recent w' 0 [ascii "x\n", ascii "y\n", ascii "z\n"] l ∧
      texts l = [ascii "y\n", ascii "z\n"] := by
  obtain ⟨w', written, l, hrun, hlines, hrecent, -⟩ :=
    @recent_lines_kept generous [] _ _ (some (.cut (ascii "a"))) 0 three rfl rfl (by decide)
      (fun _ => rfl) (fun _ => rfl)
      (by simp [three, Keeps])
  have hstate := hrun
  obtain rfl := Except.ok.inj (Eq.symm hrun)
  obtain rfl : written = [ascii "x\n", ascii "y\n", ascii "z\n"] := hlines.symm
  exact ⟨_, l, hstate, hrecent, hrecent.recent⟩

end Log
