import IcecastCommon.Log.Run

/-!
# Every log for itself

A call is about one log at most. It leaves the record and the kept lines of every other log as they
are, and all memory that is in use belongs to the kept lines of some log.
-/

namespace Log

open Lib

variable {w w' w'' : Logger} {id : Nat} {l l' l'' : Kept} {lists : Nat → Kept} {log : log_t}

/-! ## One log -/

/-- What is in use behind a call on the log with the list `l` is in its new list `l'`, or was in use
elsewhere. -/
def NoStray (w w' : Logger) (l l' : Kept) : Prop :=
  ∀ a, (w'.heap.get a).isSome → a ∈ addresses l' ∨ (w.heap.get a).isSome ∧ a ∉ addresses l

theorem NoStray.trans (h : NoStray w w' l l') (h' : NoStray w' w'' l' l'') :
    NoStray w w'' l l'' := by
  intro a ha
  rcases h' a ha with hl'' | ⟨hw', hl'⟩
  · exact .inl hl''
  · exact .inr ((h a hw').resolve_left hl')

theorem noStray_touch (hheap : w'.heap = w.heap) (l : Kept) : NoStray w w' l l := by
  intro a ha
  rw [hheap] at ha
  by_cases hl : a ∈ addresses l
  · exact .inl hl
  · exact .inr ⟨ha, hl⟩

theorem noStray_trim {count : Nat} (ht : Trimmed w id count l w') :
    NoStray w w' l (l.drop (l.length - count)) := by
  obtain ⟨heap, head, rfl, -, hfreed⟩ := ht
  intro a ha
  change (heap.get a).isSome at ha
  have hstays : a ∉ addresses (l.take (l.length - count)) := by
    intro hgone
    rw [hfreed.dead a hgone] at ha
    cases ha
  rw [hfreed.live a hstays] at ha
  by_cases hl : a ∈ addresses l
  · rw [← List.take_append_drop (l.length - count) l, addresses_append, List.mem_append] at hl
    exact .inl (hl.resolve_left hstays)
  · exact .inr ⟨ha, hl⟩

/-- The entry at the head is freed. -/
theorem remove_head_frees (w : Logger) (id : Nat) : Yields (remove_head w id) fun w' =>
    ∃ a, (w.loglist id).log_head = some a ∧ w'.heap.get a = none ∧ ∀ b, (w'.heap.get b).isSome →
      (w.heap.get b).isSome := by
  intro w' hw'
  obtain ⟨entry, hload, hw'⟩ := bind_eq_ok.mp hw'
  obtain ⟨heap, hfree, hw'⟩ := bind_eq_ok.mp hw'
  cases hw'
  cases hhead : (w.loglist id).log_head with
  | none =>
    rw [hhead] at hload
    cases hload
  | some a =>
    rw [hhead] at hload hfree
    cases hget : w.heap.get a with
    | none => simp [Heap.load, hget] at hload
    | some x =>
      obtain ⟨heap', hfree', hfreed⟩ := Heap.free_eq hget
      cases hfree.symm.trans hfree'
      refine ⟨a, rfl, hfreed.dead a (by simp), fun b hb => ?_⟩
      change (heap.get b).isSome at hb
      by_cases hba : b = a
      · rw [hba, hget]
        rfl
      · rwa [hfreed.live b (by simpa using hba)] at hb

/-- Where a line is linked, the first one is freed when there are enough. -/
theorem link_entry_noStray {entry len : Nat} {x : log_entry_t} {text : CString}
    (hlist : List_at w.heap (w.loglist id).log_head l) (hnodup : (addresses l).Nodup)
    (hentries : (w.loglist id).entries = l.length) (htail : (w.loglist id).log_tail = end_of id l)
    (hnew : entry ∉ addresses l) (hx : w.heap.get entry = some x)
    (hholds : Holds x text) (hend : x.next = none) :
    Yields (link_entry w id entry len) fun r =>
      ∀ a, (r.2.heap.get a).isSome →
      a ∈ addresses (appended (w.loglist id).keep_entries l (entry, text)) ∨
        (w.heap.get a).isSome ∧ a ∉ addresses l ∧ a ≠ entry := by
  obtain ⟨heap, head, hstore, hlist1, -, hsame⟩ :=
    store_tail_spec hlist hnodup htail hnew hx hholds hend
  -- Storing the pointer changes no block but the last one of the list.
  have hstored (a : Nat) (ha : (heap.get a).isSome) : a ∈ addresses (l ++ [(entry, text)]) ∨
      (w.heap.get a).isSome ∧ a ∉ addresses l ∧ a ≠ entry := by
    by_cases hl : a ∈ addresses (l ++ [(entry, text)])
    · exact .inl hl
    · rw [addresses_append, List.mem_append, not_or] at hl
      rw [hsame a hl.1] at ha
      exact .inr ⟨ha, hl.1, by simpa using hl.2⟩
  unfold link_entry
  refine yields_bind fun w1 hw1 => ?_
  cases hw1.symm.trans hstore
  simp only [put_put, put_self]
  unfold appended
  rw [← hentries]
  refine yields_ite (fun hfull => ?_) fun hfull => yields_ok ?_
  · rw [if_pos hfull]
    refine (remove_head_frees _ id).bind fun w2 hw2 => yields_ok fun a ha => ?_
    obtain ⟨first, hfirst, hgone, hkept⟩ := hw2
    refine (hstored a (hkept a ha)).imp_left fun hl => ?_
    cases hall : l ++ [(entry, text)] with
    | nil => simp at hall
    | cons e rest =>
      rw [hall, addresses_cons, List.mem_cons] at hl
      refine hl.resolve_left ?_
      rintro rfl
      have hhead : head = some e.1 := by
        rw [hall] at hlist1
        exact hlist1.1
      rw [put_self] at hfirst
      cases hhead.symm.trans hfirst
      rw [hgone] at ha
      cases ha
  · rw [if_neg hfull]
    exact hstored

/-- A call on the log `id` that makes `l'` of its list `l`, and leaves no memory behind. -/
def Settles (w : Logger) (id : Nat) (l : Kept) (w' : Logger) : Prop :=
  ∃ l', Effect w id l w' l' ∧ NoStray w w' l l'

theorem Settles.touch (h : Settles w id l w') {f : log_t → log_t} {w'' : Logger}
    (hheap : w''.heap = w'.heap) (hslots : w''.loglist = (w'.put id f).loglist)
    (hs : SameList (w'.loglist id) (f (w'.loglist id)))
    (huse : (f (w'.loglist id)).in_use = (w'.loglist id).in_use) : Settles w id l w'' := by
  obtain ⟨l', he, hc⟩ := h
  refine ⟨l', he.trans (touch_effect he.1 hheap hslots hs ?_), hc.trans (noStray_touch hheap l')⟩
  rw [huse]
  exact he.1.unused

theorem settles_same (h : Slot w.heap id (w.loglist id) l) (hheap : w'.heap = w.heap)
    (hslots : w'.loglist = w.loglist) :
    Settles w id l w' :=
  ⟨l, same_effect h hheap hslots, noStray_touch hheap l⟩

theorem create_log_entry_settles {pre line : CString} (h : Slot w.heap id (w.loglist id) l)
    (huse : (w.loglist id).in_use = true) (hfits : (text_of pre line).bytes.length + 1 < 2 ^ 32) :
    Yields (create_log_entry w id pre line) fun r => Settles w id l r.2 := by
  intro r hr
  by_cases hkeep : (w.loglist id).keep_entries = 0
  · unfold create_log_entry at hr
    rw [if_pos hkeep] at hr
    cases hfile : (w.loglist id).logfile with
    | none =>
      rw [hfile] at hr
      cases hr
    | some file =>
      rw [hfile] at hr
      cases hr
      exact settles_same h rfl rfl
  · obtain ⟨hcalloc, hmalloc, file, hfile⟩ := create_log_entry_ok hkeep hr
    rcases h.tail with htail | ⟨rfl, a, htail, hdead⟩
    · obtain ⟨w', log, hentry, he, -⟩ :=
        create_log_entry_kept h huse hkeep hfile hcalloc hmalloc hfits htail
      cases hr.symm.trans hentry
      refine ⟨_, he, fun a ha => ?_⟩
      rw [create_log_entry_link hkeep hfile hcalloc hmalloc hfits] at hr
      have hold (b : Nat) (hb : b < w.heap.size) :
          (with_entry w id file (text_of pre line)).heap.get b = w.heap.get b :=
        Heap.get_alloc w.heap _ hb
      have hslot : (with_entry w id file (text_of pre line)).loglist id =
          { w.loglist id with
            total := ((w.loglist id).total + ((text_of pre line).bytes.length + 1)) % 2 ^ 64 } := by
        simp [with_entry]
      have hlist : List_at (with_entry w id file (text_of pre line)).heap
          ((with_entry w id file (text_of pre line)).loglist id).log_head l := by
        rw [hslot]
        exact h.list.frame fun b hb => hold b (h.list.lt hb)
      have hstray := link_entry_noStray hlist h.nodup (by rw [hslot]; exact h.entries)
        (by rw [hslot]; exact htail) (fun hmem => lt_irrefl _ (h.list.lt hmem))
          (Heap.get_alloc_self w.heap _)
        (⟨rfl, rfl, hfits⟩ : Holds (entry_of (text_of pre line)) _) rfl _ hr a ha
      rw [hslot] at hstray
      refine hstray.imp_right fun hout => ⟨?_, hout.2.1⟩
      obtain ⟨x, hx⟩ := Option.isSome_iff_exists.mp hout.1
      have hlt : a < w.heap.size + 1 := (Heap.lt_of_get hx).trans_eq (Heap.size_alloc w.heap _)
      have hne := hout.2.2
      rw [← hold a (by omega)]
      exact hout.1
    · -- The line would be linked into an entry that is gone.
      rw [create_log_entry_link hkeep hfile hcalloc hmalloc hfits] at hr
      obtain ⟨w1, hstore, -⟩ := bind_eq_ok.mp hr
      rw [store_tail_dead (a := a)] at hstore
      · cases hstore
      · simpa [with_entry] using htail
      · rw [with_entry, put_heap]
        exact (Heap.get_alloc w.heap _ hdead.1).trans hdead.2

theorem write_line_settles {pre : CString} {line : Line} (h : Slot w.heap id (w.loglist id) l)
    (hpre : pre.bytes.length ≤ 255) : Yields (write_line w id pre line) (Settles w id l) := by
  have ho := _log_open_spec w id
  obtain ⟨he1, -⟩ := ho.effect h
  have hopened : Settles w id l (_log_open w id).2 := ⟨l, he1, noStray_touch ho.heap l⟩
  refine write_line_keeps (fun _ => hopened) fun hopen r hr => ?_
  have huse : ((_log_open w id).2.loglist id).in_use = true := by
    obtain ⟨logfile, size, hslots, -, hopened⟩ := ho.slot
    rw [hslots, Function.update_self]
    exact (hopened hopen).1
  obtain ⟨l', he2, hc2⟩ := create_log_entry_settles he1.1 huse (text_fits hpre line) r hr
  have hwritten : Settles w id l r.2 := ⟨l', he1.trans he2, (noStray_touch ho.heap l).trans hc2⟩
  exact ⟨hwritten, hwritten.touch rfl rfl ⟨rfl, rfl, rfl, rfl⟩ rfl⟩

theorem remove_entries_settles {count : Nat} (h : Listed w.heap (w.loglist id) l)
    (htail : Tailed w.heap id (w.loglist id) l)
    (hunused : (w.loglist id).in_use = false → l = [] ∨ count = 0) :
    Yields (remove_entries w id count) (Settles w id l) := by
  obtain ⟨w', hrun, htrimmed⟩ := remove_loop_spec count h.entries.ge h
  unfold remove_entries
  rw [hrun]
  exact yields_ok ⟨_, (trim_effect h htail hunused htrimmed).1, noStray_trim htrimmed⟩

theorem NewLog.settles {reset : Bool} (hn : NewLog w w' id reset)
    (h : Slot w.heap id (w.loglist id) l) : Settles w id l w' :=
  ⟨l, (hn.effect h).1, noStray_touch hn.heap l⟩

/-! ## Calls -/

/-- The call is about one log, or does nothing to any. -/
def About (w : Logger) (lists : Nat → Kept) (subject : Option Nat) (w' : Logger) : Prop :=
  w'.heap = w.heap ∧ w'.loglist = w.loglist ∨ ∃ id, subject = some id ∧ Settles w id (lists id) w'

theorem call_about (h : Arranged w lists) (c : Call) :
    Yields (call w c) (About w lists (c.subject w)) := by
  suffices hall : ∀ result, Does w c result →
    Yields result (About w lists (c.subject w)) from hall _ (call_does w c)
  intro result hdoes
  cases hdoes with
  | nothing hsame => exact fun w' hw' => .inl (hsame w' hw')
  | opens hsubject hnew _ => exact yields_ok (.inr ⟨_, hsubject, hnew.settles (h.slots _)⟩)
  | sets hsets huse =>
    exact yields_ok
      (.inr ⟨_, hsets.subject, _, hsets.effect (h.slots _) huse, noStray_touch hsets.heap _⟩)
  | removes hsets huse _ =>
    obtain ⟨hlisted, htailed, -⟩ := hsets.listed (h.slots _)
    intro w' hw'
    obtain ⟨l', he, hc⟩ :=
      remove_entries_settles hlisted htailed (hsets.unused (h.slots _) huse) w' hw'
    refine .inr ⟨_, hsets.subject, l', ⟨he.1, ?_⟩, (noStray_touch hsets.heap _).trans hc⟩
    exact (touch_elsewhere hsets.heap hsets.slots).trans he.2
  | @writes id _ _ _ hsubject hheap hslots hpre =>
    have he := same_effect (h.slots id) hheap hslots
    intro w' hw'
    obtain ⟨l', he', hc⟩ := write_line_settles he.1 hpre w' hw'
    exact .inr ⟨id, hsubject, l', he.trans he', (noStray_touch hheap _).trans hc⟩

/-! ## Runs -/

/-- The lists of the logs are apart, and all that is in use. -/
structure Inventory (w : Logger) (lists : Nat → Kept) : Prop where
  arranged : Arranged w lists
  used : ∀ a, (w.heap.get a).isSome → ∃ id, a ∈ addresses (lists id)

theorem Inventory.call (h : Inventory w lists) (c : Call) :
    Yields (call w c) fun w' => ∃ lists, Inventory w' lists := by
  intro w' hw'
  rcases call_about h.arranged c w' hw' with ⟨hheap, hslots⟩ | ⟨id, -, l', he, hc⟩
  · refine ⟨lists, ⟨?_, h.arranged.apart⟩, hheap ▸ h.used⟩
    rw [hheap, hslots]
    exact h.arranged.slots
  · refine ⟨_, h.arranged.step he, fun a ha => ?_⟩
    rcases hc a ha with hl' | ⟨hw, hl⟩
    · exact ⟨id, by rwa [Function.update_self]⟩
    · obtain ⟨j, hj⟩ := h.used a hw
      refine ⟨j, ?_⟩
      rw [Function.update_of_ne]
      · exact hj
      · rintro rfl
        exact hl hj

/-- **Every log for itself.** After every run that gets through: each log has its kept lines on a
list of its own, counted and summed up, and none when it is not in use; what is allocated is on
these lists; and the next call leaves the record and the lines of every log but the one that it is
about. -/
theorem logs_apart (answers : Answers) (calls : List Call) {w : Logger}
    (hrun : calls.foldlM call (Log.log_initialize answers) = .ok w) :
    ∃ lists : Nat → Kept,
      (∀ id, Listed w.heap (w.loglist id) (lists id) ∧
      ((w.loglist id).in_use = false → lists id = [])) ∧
      (∀ i j, i ≠ j → ∀ a ∈ addresses (lists i), a ∉ addresses (lists j)) ∧
      (∀ a, (w.heap.get a).isSome ↔ ∃ id, a ∈ addresses (lists id)) ∧
      ∀ c w', call w c = .ok w' → ∀ j, c.subject w ≠ some j →
        w'.loglist j = w.loglist j ∧ ∀ a ∈ addresses (lists j), w'.heap.get a = w.heap.get a := by
  have hstart : Inventory (Log.log_initialize answers) fun _ => [] :=
    ⟨initialize_arranged answers, fun a ha => absurd ha (by simp [Heap.get, log_initialize])⟩
  obtain ⟨lists, h⟩ := run_yields (fun w => ∃ lists, Inventory w lists)
    (fun c _ w hw w' hw' => hw.elim fun lists hw => hw.call c w' hw') ⟨_, hstart⟩ w hrun
  refine ⟨lists, fun id => ⟨(h.arranged.slots id).toListed, (h.arranged.slots id).unused⟩,
    h.arranged.apart,
    fun a => ⟨h.used a, ?_⟩, fun c w' hw' j hj => ?_⟩
  · rintro ⟨id, hid⟩
    obtain ⟨x, hx⟩ := (h.arranged.slots id).list.live hid
    exact Option.isSome_of_eq_some hx
  · rcases call_about h.arranged c w' hw' with ⟨hheap, hslots⟩ | ⟨id, hid, l', he, -⟩
    · exact ⟨congrFun hslots j, fun a _ => by rw [hheap]⟩
    · have hne : j ≠ id := by
        rintro rfl
        exact hj hid
      exact ⟨he.2.slots j hne, fun a ha =>
        he.2.heap a ((h.arranged.slots j).list.lt ha) (h.arranged.apart j id hne a ha)⟩

/-- Two logs keep a line each, and one of them is closed. -/
def two_logs : List Call :=
  [.log_open (some (.cut (ascii "a"))), .log_open_file (some 7), .log_set_lines_kept 0 1,
    .log_set_lines_kept 1 2, .log_write_direct 0 ⟨.cut (ascii "x"), x_fits⟩,
    .log_write_direct 1 ⟨.cut (ascii "x"), x_fits⟩, .log_close 0]

theorem logs_apart_two : ∃ w, two_logs.foldlM call (Log.log_initialize generous) = .ok w ∧
    ∃ lists : Nat → Kept,
      (∀ id, Listed w.heap (w.loglist id) (lists id) ∧
      ((w.loglist id).in_use = false → lists id = [])) ∧
      (∀ i j, i ≠ j → ∀ a ∈ addresses (lists i), a ∉ addresses (lists j)) ∧
      (∀ a, (w.heap.get a).isSome ↔ ∃ id, a ∈ addresses (lists id)) ∧
      ∀ c w', call w c = .ok w' → ∀ j, c.subject w ≠ some j →
        w'.loglist j = w.loglist j ∧ ∀ a ∈ addresses (lists j), w'.heap.get a = w.heap.get a :=
  ⟨_, rfl, logs_apart generous two_logs rfl⟩

end Log
