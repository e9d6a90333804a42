import IcecastCommon.Log.Slots

/-!
# What happens to one list

The parts of the calls, each with what it does to the list of one log: the lists of different logs
stay apart, and `log_tail` is behind the last entry, or it points into a freed entry while the list
is empty.
-/

namespace Log

open Lib

/-! ## One log -/

/-- The tail is behind the last entry, or an emptied list has left it in a freed one. -/
def Tailed (heap : Heap log_entry_t) (id : Nat) (log : log_t) (l : Kept) : Prop :=
  log.log_tail = end_of id l ∨ l = [] ∧ ∃ a, log.log_tail = .next a ∧ heap.Dead a

structure Slot (heap : Heap log_entry_t) (id : Nat) (log : log_t) (l : Kept) :
    Prop extends Listed heap log l where
  unused : log.in_use = false → l = []
  tail : Tailed heap id log l

/-- What belongs to the list is the same. -/
structure SameList (log log' : log_t) : Prop where
  head : log'.log_head = log.log_head
  tail : log'.log_tail = log.log_tail
  entries : log'.entries = log.entries
  total : log'.total = log.total

/-- What a log was told to do is the same. -/
structure SameSettings (log log' : log_t) : Prop where
  in_use : log'.in_use = log.in_use
  filename : log'.filename = log.filename
  logfile : log'.logfile = log.logfile
  keep_entries : log'.keep_entries = log.keep_entries

variable {heap heap' : Heap log_entry_t} {id : Nat} {log log' : log_t} {l l' l'' : Kept}
  {w w' w'' : Logger}

theorem Slot.frame (h : Slot heap id log l) (hsame : ∀ a ∈ addresses l, heap'.get a = heap.get a)
    (hdead : ∀ a, heap.Dead a → heap'.Dead a) : Slot heap' id log l := by
  refine ⟨⟨h.list.frame hsame, h.nodup, h.entries, h.total⟩, h.unused, h.tail.imp_right ?_⟩
  rintro ⟨hnil, a, htail, ha⟩
  exact ⟨hnil, a, htail, hdead a ha⟩

theorem Listed.same (h : Listed heap log l) (hs : SameList log log') : Listed heap log' l := by
  refine ⟨?_, h.nodup, ?_, ?_⟩
  · rw [hs.head]
    exact h.list
  · rw [hs.entries]
    exact h.entries
  · rw [hs.total]
    exact h.total

theorem Slot.same (h : Slot heap id log l) (hs : SameList log log')
    (huse : log'.in_use = false → l = []) :
    Slot heap id log' l := by
  refine ⟨h.toListed.same hs, huse, ?_⟩
  rw [Tailed, hs.tail]
  exact h.tail

/-! ## All logs -/

/-- What a call on the log `id` leaves alone. -/
structure Elsewhere (w w' : Logger) (id : Nat) (l l' : Kept) : Prop where
  slots : ∀ j, j ≠ id → w'.loglist j = w.loglist j
  size : w.heap.size ≤ w'.heap.size
  heap : ∀ a < w.heap.size, a ∉ addresses l → w'.heap.get a = w.heap.get a
  owned : ∀ a ∈ addresses l', a ∈ addresses l ∨ w.heap.size ≤ a

theorem Elsewhere.trans (h : Elsewhere w w' id l l') (h' : Elsewhere w' w'' id l' l'') :
    Elsewhere w w'' id l l'' := by
  refine ⟨fun j hj => (h'.slots j hj).trans (h.slots j hj), h.size.trans h'.size,
    fun a ha hmem => ?_, fun a ha => ?_⟩
  · rw [h'.heap a (ha.trans_le h.size), h.heap a ha hmem]
    intro hmem'
    rcases h.owned a hmem' with hl | hge
    · exact hmem hl
    · omega
  · rcases h'.owned a ha with hl' | hge
    · exact h.owned a hl'
    · exact .inr (h.size.trans hge)

/-- A call on the log `id` that makes `l'` of its list `l`. -/
def Effect (w : Logger) (id : Nat) (l : Kept) (w' : Logger) (l' : Kept) : Prop :=
  Slot w'.heap id (w'.loglist id) l' ∧ Elsewhere w w' id l l'

theorem Effect.trans (h : Effect w id l w' l') (h' : Effect w' id l' w'' l'') :
    Effect w id l w'' l'' :=
  ⟨h'.1, h.2.trans h'.2⟩

/-- The lists of all logs, with no entry in two of them. -/
structure Arranged (w : Logger) (lists : Nat → Kept) : Prop where
  slots : ∀ id, Slot w.heap id (w.loglist id) (lists id)
  apart : ∀ i j, i ≠ j → ∀ a ∈ addresses (lists i), a ∉ addresses (lists j)

theorem Arranged.step {lists : Nat → Kept} (h : Arranged w lists)
    (he : Effect w id (lists id) w' l') :
    Arranged w' (Function.update lists id l') := by
  obtain ⟨hslot, hother⟩ := he
  constructor
  · intro j
    by_cases hj : j = id
    · subst hj
      rw [Function.update_self]
      exact hslot
    · rw [Function.update_of_ne hj, hother.slots j hj]
      refine (h.slots j).frame (fun a ha =>
        hother.heap a ((h.slots j).list.lt ha) (h.apart j id hj a ha)) ?_
      rintro a ⟨hlt, hnone⟩
      refine ⟨hlt.trans_le hother.size, ?_⟩
      rw [hother.heap a hlt, hnone]
      intro hmem
      obtain ⟨x, hx⟩ := (h.slots id).list.live hmem
      exact absurd (hnone.symm.trans hx) (by simp)
  · have hnew (j : Nat) (hj : j ≠ id) (a : Nat) (ha : a ∈ addresses l') :
        a ∉ addresses (lists j) := by
      rcases hother.owned a ha with hl | hge
      · exact h.apart id j (Ne.symm hj) a hl
      · intro hmem
        have hlt := (h.slots j).list.lt hmem
        omega
    intro i j hij a ha
    by_cases hi : i = id
    · subst hi
      rw [Function.update_self] at ha
      rw [Function.update_of_ne (Ne.symm hij)]
      exact hnew j (Ne.symm hij) a ha
    · rw [Function.update_of_ne hi] at ha
      by_cases hj : j = id
      · subst hj
        rw [Function.update_self]
        exact fun hmem => hnew i hi a hmem ha
      · rw [Function.update_of_ne hj]
        exact h.apart i j hij a ha

theorem initialize_arranged (answers : Answers) :
    Arranged (Log.log_initialize answers) fun _ => [] :=
  ⟨fun _ => ⟨⟨rfl, List.nodup_nil, rfl, rfl⟩, fun _ => rfl, .inl rfl⟩, fun _ _ _ _ ha =>
    absurd ha (by simp)⟩

/-! ## Operations -/

/-- The texts that were written to files. -/
def lines (events : List Event) : List Bytes :=
  events.filterMap fun event => match event with
    | .fprintf _ text => some text
    | _ => none

@[simp] theorem lines_append (events events' : List Event) :
    lines (events ++ events') = lines events ++ lines events' :=
  List.filterMap_append

/-- What `_log_open` does beside its result. -/
structure Opened (w w' : Logger) (id : Nat) (ret : Int) : Prop where
  heap : w'.heap = w.heap
  calloc : w'.answers.calloc = w.answers.calloc
  malloc : w'.answers.malloc = w.answers.malloc
  lines : lines w'.events = lines w.events
  slot : ∃ logfile size,
    w'.loglist = Function.update w.loglist id { w.loglist id with
      logfile := logfile, size := size } ∧
    ((w.loglist id).filename = none → logfile = (w.loglist id).logfile) ∧
    (ret ≠ 0 → (w.loglist id).in_use = true ∧
      (logfile = none ↔ (w.loglist id).filename = none ∧ (w.loglist id).logfile = none))

theorem rotate_spec (w : Logger) (id : Nat) (filename : CString) :
    (rotate w id filename).heap = w.heap ∧
      (rotate w id filename).answers.calloc = w.answers.calloc ∧
    (rotate w id filename).answers.malloc = w.answers.malloc ∧
    lines (rotate w id filename).events = lines w.events ∧
    (rotate w id filename).loglist = Function.update w.loglist id { w.loglist id with
      logfile := none } := by
  unfold rotate
  cases hfile : (w.loglist id).logfile with
  | none =>
    have hslot : { w.loglist id with logfile := none } = w.loglist id := by rw [← hfile]
    refine ⟨rfl, rfl, rfl, rfl, ?_⟩
    rw [hslot]
    exact (Function.update_eq_self id w.loglist).symm
  | some file =>
    dsimp only
    split_ifs <;> refine ⟨rfl, rfl, rfl, ?_, rfl⟩ <;>
      simp [Logger.record, Logger.strftime, Logger.put, lines]

theorem _log_open_spec (w : Logger) (id : Nat) :
    Opened w (_log_open w id).2 id (_log_open w id).1 := by
  have hsame : w.loglist = Function.update w.loglist id
      { w.loglist id with logfile := (w.loglist id).logfile, size := (w.loglist id).size } :=
    (Function.update_eq_self id w.loglist).symm
  unfold _log_open
  by_cases huse : (w.loglist id).in_use = true
  · rw [if_neg (not_not.mpr huse)]
    by_cases hopen : (w.loglist id).logfile = none ∨
        ((w.loglist id).trigger_level ≠ 0 ∧ (w.loglist id).size > (w.loglist id).trigger_level)
    · rw [if_pos hopen]
      cases hname : (w.loglist id).filename with
      | none =>
        exact ⟨rfl, rfl, rfl, rfl, (w.loglist id).logfile, 0, rfl, fun _ => rfl, fun _ =>
          ⟨huse, by simp [hname]⟩⟩
      | some filename =>
        obtain ⟨hheap, hcalloc, hmalloc, hlines, hslots⟩ := rotate_spec w id filename
        have hevents : lines ((rotate w id filename).events ++ [.fopen filename]) =
            lines w.events := by
          rw [lines_append, hlines]
          simp [lines]
        have hnamed {P : Prop} (hnone : (w.loglist id).filename = none) : P :=
          absurd (hname.symm.trans hnone) (by simp)
        dsimp only
        split_ifs with hfile
        · refine ⟨hheap, hcalloc, hmalloc, hevents, (rotate w id filename).answers.fopen 0,
            (w.loglist id).size, ?_, hnamed, fun h => absurd rfl h⟩
          simp [Logger.put, Logger.fopen, Logger.record, hslots]
        · refine ⟨hheap, hcalloc, hmalloc, hevents, (rotate w id filename).answers.fopen 0,
            ((rotate w id filename).answers.stat 0).getD 0, ?_, hnamed, fun _ => ⟨huse, ?_⟩⟩
          · simp [Logger.put, Logger.fopen, Logger.record, Logger.stat, hslots]
          · constructor
            · intro hnone
              exact absurd hnone hfile
            · rintro ⟨hnone, -⟩
              exact hnamed hnone
    · rw [if_neg hopen]
      rw [not_or] at hopen
      exact ⟨rfl, rfl, rfl, rfl, _, _, hsame, fun _ => rfl, fun _ => ⟨huse, by simp [hopen.1]⟩⟩
  · rw [if_pos huse]
    exact ⟨rfl, rfl, rfl, rfl, _, _, hsame, fun _ => rfl, fun h => absurd rfl h⟩

/-! ### Effects on the list -/

theorem touch_elsewhere (hheap : w'.heap = w.heap)
    (hslots : w'.loglist = Function.update w.loglist id log) :
    Elsewhere w w' id l l := by
  refine ⟨fun j hj => ?_, hheap ▸ le_rfl, fun a _ _ => by rw [hheap], fun a ha => .inl ha⟩
  rw [hslots, Function.update_of_ne hj]

/-- Only fields that have nothing to do with the list are changed. -/
theorem touch_effect (h : Slot w.heap id (w.loglist id) l) (hheap : w'.heap = w.heap)
    (hslots : w'.loglist = Function.update w.loglist id log) (hs : SameList (w.loglist id) log)
    (huse : log.in_use = false → l = []) : Effect w id l w' l := by
  refine ⟨?_, touch_elsewhere hheap hslots⟩
  rw [hheap, hslots, Function.update_self]
  exact h.same hs huse

/-- The tail is behind the last entry. -/
def Ended (w : Logger) (id : Nat) (l : Kept) : Prop := (w.loglist id).log_tail = end_of id l

theorem end_of_drop {n : Nat} (h : n < l.length) : end_of id (l.drop n) = end_of id l := by
  rw [end_of, end_of, List.getLast?_drop, if_neg (Nat.not_le.mpr h)]

theorem trim_effect {count : Nat} (h : Listed w.heap (w.loglist id) l)
    (htail : Tailed w.heap id (w.loglist id) l)
    (hunused : (w.loglist id).in_use = false → l = [] ∨ count = 0) (ht : Trimmed w id count l w') :
    Effect w id l w' (l.drop (l.length - count)) ∧
      (Ended w id l → count ≠ 0 ∨ l = [] → Ended w' id (l.drop (l.length - count))) := by
  obtain ⟨heap, head, rfl, hlist, hfreed⟩ := ht
  have hnodup : (addresses (l.drop (l.length - count))).Nodup := by
    rw [addresses_drop]
    exact h.nodup.drop
  -- Some entries are left, or there was none.
  have hended (hended : Ended w id l) (hkeep : count ≠ 0 ∨ l = []) :
      (w.loglist id).log_tail = end_of id (l.drop (l.length - count)) := by
    rcases List.eq_nil_or_concat' l with rfl | ⟨l, e, rfl⟩
    · rw [List.drop_nil]
      exact hended
    · rw [end_of_drop]
      · exact hended
      · have hcount := hkeep.resolve_right (by simp)
        simp only [List.length_append, List.length_singleton]
        omega
  refine ⟨⟨⟨⟨?_, hnodup, ?_, ?_⟩, ?_, ?_⟩, ?_⟩, ?_⟩
  · simpa [relisted] using hlist
  · simp [relisted]
  · simp [relisted]
  · intro huse
    rcases hunused (by simpa [relisted] using huse) with rfl | rfl
    · exact List.drop_nil
    · exact List.drop_length
  · rw [put_self]
    change (w.loglist id).log_tail = _ ∨ _ ∧ ∃ a, (w.loglist id).log_tail = .next a ∧ heap.Dead a
    rcases htail with htail | ⟨hnil, a, htail, hdead⟩
    · by_cases hkeep : count ≠ 0 ∨ l = []
      · exact .inl (hended htail hkeep)
      · -- The last entry is freed with all others.
        rw [not_or, not_not] at hkeep
        obtain ⟨rfl, hne⟩ := hkeep
        obtain ⟨l, e, rfl⟩ := (List.eq_nil_or_concat' l).resolve_left hne
        rw [Nat.sub_zero, List.take_length] at hfreed
        refine .inr ⟨by simp, e.1, by simpa using htail, ?_, hfreed.dead e.1 (by simp)⟩
        rw [hfreed.size]
        exact h.list.lt (by simp)
    · refine .inr ⟨by rw [hnil, List.drop_nil], a, htail, ?_, ?_⟩
      · rw [hfreed.size]
        exact hdead.1
      · rw [hfreed.live a (by simp [hnil])]
        exact hdead.2
  · refine ⟨fun j hj => put_other _ _ hj, hfreed.size.ge,
      fun a _ ha => hfreed.live a fun hmem => ha ?_, fun a ha => ?_⟩
    · exact List.map_subset _ (List.take_subset _ l) hmem
    · exact .inl (List.map_subset _ (List.drop_subset _ l) ha)
  · intro he hkeep
    rw [Ended, put_self]
    exact hended he hkeep

theorem same_effect (h : Slot w.heap id (w.loglist id) l) (hheap : w'.heap = w.heap)
    (hslots : w'.loglist = w.loglist) : Effect w id l w' l := by
  have hsame : w'.loglist = Function.update w.loglist id (w.loglist id) := by
    rw [hslots, Function.update_eq_self]
  exact touch_effect h hheap hsame ⟨rfl, rfl, rfl, rfl⟩ h.unused

theorem end_of_appended (id : Nat) (l : Kept) {keep : Nat} (e : Nat × CString) (hkeep : keep ≠ 0) :
    end_of id (appended keep l e) = .next e.1 := by
  unfold appended
  split_ifs with hfull
  · cases l with
    | nil => exact absurd (Nat.le_zero.mp hfull) hkeep
    | cons e' l => exact end_of_snoc id l e
  · exact end_of_snoc id l e

theorem appended_sublist (keep : Nat) (l : Kept) (e : Nat × CString) :
    (appended keep l e).Sublist (l ++ [e]) := by
  unfold appended
  split_ifs
  · exact List.tail_sublist _
  · exact List.Sublist.refl _

theorem create_log_entry_kept {pre line : CString} {file : FILE}
    (h : Slot w.heap id (w.loglist id) l) (huse : (w.loglist id).in_use = true)
    (hkeep : (w.loglist id).keep_entries ≠ 0) (hfile : (w.loglist id).logfile = some file)
    (hcalloc : w.answers.calloc 0 = true) (hmalloc : w.answers.malloc 0 = true)
    (hfits : (text_of pre line).bytes.length + 1 < 2 ^ 32) (hended : Ended w id l) :
    ∃ w' log, create_log_entry w id pre line =
      .ok ((((text_of pre line).bytes.length + 1 : Nat) : Int), w') ∧
      Effect w id l w' (appended (w.loglist id).keep_entries l (w.heap.size, text_of pre line)) ∧
      Ended w' id (appended (w.loglist id).keep_entries l (w.heap.size, text_of pre line)) ∧
      w'.answers = w.answers.next_line ∧
      w'.events = w.events ++ [.fprintf file (text_of pre line).bytes] ∧
      w'.loglist = Function.update w.loglist id log ∧ SameSettings (w.loglist id) log := by
  obtain ⟨heap, head, hentry, hlist, hsize, hsame⟩ :=
    create_log_entry_spec hkeep hfile hcalloc hmalloc hfits h.toListed hended
  have hsub := appended_sublist (w.loglist id).keep_entries l (w.heap.size, text_of pre line)
  have hnodup : (addresses (l ++ [(w.heap.size, text_of pre line)])).Nodup := by
    rw [addresses_append, List.nodup_append]
    refine ⟨h.nodup, by simp, fun a ha b hb hab => ?_⟩
    have hlt := h.list.lt ha
    rw [hab, List.mem_singleton.mp hb] at hlt
    exact lt_irrefl _ hlt
  have htail := end_of_appended id l (w.heap.size, text_of pre line) hkeep
  refine ⟨_, _, hentry, ⟨⟨⟨?_, hnodup.sublist (hsub.map Prod.fst), ?_, ?_⟩, ?_, .inl ?_⟩, ?_⟩, ?_,
    rfl, rfl, rfl, ?_⟩
  · simpa [relisted] using hlist
  · simp [relisted]
  · simp [relisted]
  · intro hfree
    exact absurd (huse.symm.trans (by simpa [relisted] using hfree)) (by simp)
  · rw [put_self, htail]
  · refine ⟨fun j hj => Function.update_of_ne hj _ _, ?_, hsame, fun a ha => ?_⟩
    · exact (Nat.le_succ _).trans hsize.ge
    · have hmem : a ∈ addresses (l ++ [(w.heap.size, text_of pre line)]) :=
        (hsub.map Prod.fst).subset ha
      rw [addresses_append, List.mem_append] at hmem
      refine hmem.imp_right fun hnew => ?_
      exact (List.mem_singleton.mp hnew).ge
  · rw [Ended, put_self, htail]
  · exact ⟨rfl, rfl, rfl, rfl⟩

theorem create_log_entry_effect {pre line : CString} (h : Slot w.heap id (w.loglist id) l)
    (huse : (w.loglist id).in_use = true) (hfits : (text_of pre line).bytes.length + 1 < 2 ^ 32) :
    Yields (create_log_entry w id pre line) fun r =>
      ∃ l', Effect w id l r.2 l' ∧ (Ended w id l → Ended r.2 id l') := by
  intro r hr
  by_cases hkeep : (w.loglist id).keep_entries = 0
  · unfold create_log_entry at hr
    rw [if_pos hkeep] at hr
    cases hfile : (w.loglist id).logfile with
    | none =>
      rw [hfile] at hr
      exact absurd hr (by simp [Logger.fprintf])
    | some file =>
      rw [hfile] at hr
      obtain rfl := Except.ok.inj hr
      exact ⟨l, same_effect h rfl rfl, fun hended => hended⟩
  · obtain ⟨hcalloc, hmalloc, file, hfile⟩ := create_log_entry_ok hkeep hr
    rcases h.tail with htail | ⟨rfl, a, htail, hdead⟩
    · obtain ⟨w', log, hentry, he, hended, -⟩ :=
        create_log_entry_kept h huse hkeep hfile hcalloc hmalloc hfits htail
      obtain rfl := Except.ok.inj (hr.symm.trans hentry)
      exact ⟨_, he, fun _ => hended⟩
    · -- The line would be linked into an entry that is gone.
      rw [create_log_entry_link hkeep hfile hcalloc hmalloc hfits] at hr
      obtain ⟨w1, hstore, -⟩ := bind_eq_ok.mp hr
      rw [store_tail_dead (a := a)] at hstore
      · exact absurd hstore (by simp)
      · simpa [with_entry] using htail
      · rw [with_entry, put_heap]
        exact (Heap.get_alloc w.heap _ hdead.1).trans hdead.2

theorem Opened.effect {ret : Int} (ho : Opened w w' id ret) (h : Slot w.heap id (w.loglist id) l) :
    Effect w id l w' l ∧ (Ended w id l → Ended w' id l) := by
  obtain ⟨logfile, size, hslots, -, -⟩ := ho.slot
  refine ⟨touch_effect h ho.heap hslots ⟨rfl, rfl, rfl, rfl⟩ h.unused, fun hended => ?_⟩
  rw [Ended, hslots, Function.update_self]
  exact hended

/-- Both functions leave enough room for the length of an entry. -/
theorem text_fits {pre : CString} (hpre : pre.bytes.length ≤ 255) (line : Line) :
    (text_of pre line.text).bytes.length + 1 < 2 ^ 32 := by
  have hline : line.text.bytes.length < 1024 := line.fits
  rw [text_of_length]
  omega

/-- What holds of a log that is not opened, and behind an entry with and without its length in the
size. -/
theorem write_line_keeps {P : Logger → Prop} {pre : CString} {line : Line}
    (hclosed : (_log_open w id).1 = 0 → P (_log_open w id).2)
    (hentry : (_log_open w id).1 ≠ 0 →
      Yields (create_log_entry (_log_open w id).2 id pre line.text) fun r =>
        P r.2 ∧ P (r.2.put id fun log => { log with size := log.size + r.1 })) :
    Yields (write_line w id pre line) P := by
  unfold write_line
  generalize _log_open w id = r at hclosed hentry ⊢
  obtain ⟨opened, w1⟩ := r
  refine yields_ite (fun hzero => yields_ok (hclosed hzero)) fun hopen => (hentry hopen).bind ?_
  rintro ⟨len, w2⟩ ⟨hsame, hsize⟩
  apply yields_ok
  split_ifs
  · exact hsize
  · exact hsame

theorem write_line_effect {pre : CString} {line : Line} (h : Slot w.heap id (w.loglist id) l)
    (hpre : pre.bytes.length ≤ 255) :
    Yields (write_line w id pre line) fun w' => ∃ l', Effect w id l w' l' ∧
      (Ended w id l → Ended w' id l') := by
  have ho := _log_open_spec w id
  obtain ⟨he1, hended1⟩ := ho.effect h
  refine write_line_keeps (fun _ => ⟨l, he1, hended1⟩) fun hopen r hr => ?_
  have huse : ((_log_open w id).2.loglist id).in_use = true := by
    obtain ⟨logfile, size, hslots, -, hopened⟩ := ho.slot
    rw [hslots, Function.update_self]
    exact (hopened hopen).1
  obtain ⟨l', he2, hended2⟩ := create_log_entry_effect he1.1 huse (text_fits hpre line) r hr
  refine ⟨⟨l', he1.trans he2, fun hended => hended2 (hended1 hended)⟩, l', ?_, fun hended => ?_⟩
  · exact (he1.trans he2).trans (touch_effect he2.1 rfl rfl ⟨rfl, rfl, rfl, rfl⟩ he2.1.unused)
  · rw [Ended, put_self]
    exact hended2 (hended1 hended)

/-! ### Opening -/

/-- What `log_open` and `log_open_file` make of a free slot. Only the first one resets the list. -/
structure NewLog (w w' : Logger) (id : Nat) (reset : Bool) : Prop where
  heap : w'.heap = w.heap
  calloc : w'.answers.calloc = w.answers.calloc
  malloc : w'.answers.malloc = w.answers.malloc
  lines : lines w'.events = lines w.events
  valid : id < LOG_MAXLOGS
  free : (w.loglist id).in_use = false
  slot : ∃ log, w'.loglist = Function.update w.loglist id log ∧ log.in_use = true ∧
    log.logfile ≠ none ∧
    log.keep_entries = (w.loglist id).keep_entries ∧ log.total = (w.loglist id).total ∧
    if reset then log.entries = 0 ∧ log.log_head = none ∧ log.log_tail = .log_head id
    else SameList (w.loglist id) log

theorem get_log_id_spec (w : Logger) :
    _get_log_id w = (-1, w) ∨ ∃ i < LOG_MAXLOGS, (w.loglist i).in_use = false ∧
      _get_log_id w = ((i : Int), w.put i fun log => { log with in_use := true }) := by
  unfold _get_log_id
  split
  next i hfind =>
    refine .inr ⟨i, List.mem_range.mp (List.mem_of_find?_eq_some hfind), ?_, rfl⟩
    simpa using List.find?_some hfind
  · exact .inl rfl

theorem log_open_file_spec (w : Logger) (file : Option FILE) :
    (log_open_file w file).1 < 0 ∧ (log_open_file w file).2 = w ∨
      ∃ i : Nat, (log_open_file w file).1 = i ∧ NewLog w (log_open_file w file).2 i false := by
  unfold log_open_file
  split_ifs with hfile
  · exact .inl ⟨(by decide : LOG_EINSANE < 0), rfl⟩
  · rcases get_log_id_spec w with hid | ⟨i, hi, hfree, hid⟩
    · rw [hid]
      exact .inl ⟨(by decide : LOG_ENOMORELOGS < 0), rfl⟩
    · rw [hid]
      dsimp only
      rw [if_neg (Int.not_lt.mpr (Int.natCast_nonneg i))]
      refine .inr ⟨i, rfl, rfl, rfl, rfl, rfl, hi, hfree, { w.loglist i with
        in_use := true, logfile := file, filename := none, size := 0 }, ?_, rfl, hfile,
        rfl, rfl, ?_⟩
      · rw [Int.toNat_natCast, put_put]
        rfl
      · exact ⟨rfl, rfl, rfl, rfl⟩

theorem log_open_spec (w : Logger) (filename : Option CString) :
    ((log_open w filename).1 < 0 ∧ (log_open w filename).2.heap = w.heap ∧
      (log_open w filename).2.loglist = w.loglist) ∨
      ∃ i : Nat, (log_open w filename).1 = i ∧ NewLog w (log_open w filename).2 i true := by
  have hinsane : LOG_EINSANE < 0 := by decide
  unfold log_open
  cases filename with
  | none => exact .inl ⟨hinsane, rfl, rfl⟩
  | some filename =>
    by_cases hempty : filename.bytes = []
    · simp only [if_pos hempty]
      exact .inl ⟨hinsane, trivial, trivial⟩
    · simp only [if_neg hempty]
      have hfile := log_open_file_spec (w.fopen filename).2 (w.fopen filename).1
      generalize log_open_file (w.fopen filename).2 (w.fopen filename).1 = r at hfile ⊢
      obtain ⟨id, w1⟩ := r
      rcases hfile with ⟨hneg, rfl⟩ | ⟨i, rfl, hnew⟩
      · rw [if_neg (Int.not_le.mpr hneg)]
        exact .inl ⟨hneg, rfl, rfl⟩
      · obtain ⟨log, hslots, huse, hlogfile, hkeep, htotal, -⟩ := hnew.slot
        replace hslots : w1.loglist = Function.update w.loglist i log := hslots
        rw [if_pos (Int.natCast_nonneg i)]
        refine .inr ⟨i, rfl, hnew.heap, hnew.calloc, hnew.malloc, ?_, hnew.valid, hnew.free, ?_⟩
        · refine hnew.lines.trans ?_
          rw [Logger.fopen, Logger.record, lines_append]
          simp [lines]
        · simp only [Logger.put, Logger.stat, Logger.strdup, hslots, Function.update_idem,
            Function.update_self, Int.toNat_natCast, if_true]
          exact ⟨_, rfl, huse, hlogfile, hkeep, htotal, rfl, rfl, rfl⟩

theorem NewLog.effect {reset : Bool} (hn : NewLog w w' id reset)
    (h : Slot w.heap id (w.loglist id) l) :
    Effect w id l w' l ∧ (reset = true ∨ Ended w id l → Ended w' id l) := by
  obtain ⟨log, hslots, huse, -, -, htotal, hlist⟩ := hn.slot
  obtain rfl := h.unused hn.free
  cases reset with
  | true =>
    obtain ⟨hentries, hhead, htail⟩ := hlist
    have hslot : Slot w'.heap id (w'.loglist id) [] := by
      rw [hslots, Function.update_self]
      exact ⟨⟨hhead, List.nodup_nil, hentries, htotal.trans h.total⟩, fun _ => rfl, .inl htail⟩
    refine ⟨⟨hslot, touch_elsewhere hn.heap hslots⟩, fun _ => ?_⟩
    rw [Ended, hslots, Function.update_self]
    exact htail
  | false =>
    refine ⟨touch_effect h hn.heap hslots hlist fun _ => rfl, fun hended => ?_⟩
    rw [Ended, hslots, Function.update_self, hlist.tail]
    exact hended.resolve_left (by simp)

end Log
