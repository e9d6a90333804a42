import IcecastCommon.Log.Run

/-!
# The tail of a list

`log_tail` is behind the last entry as long as no log loses all its entries at once. After that it
points into a freed entry, and the next line that is kept is stored there.
-/

namespace Log

open Lib

variable {w w' : Logger} {id : Nat} {l : Kept} {lists : Nat → Kept}

/-- The tail is the `next` field of the last entry, or the head when there is none: what is stored
there is found from the head. -/
structure TailLive (w : Logger) (id : Nat) (l : Kept) : Prop where
  list : List_at w.heap (w.loglist id).log_head l
  tail : (w.loglist id).log_tail = end_of id l
  next : ∀ entry x text, entry ∉ addresses l → w.heap.get entry = some x → Holds x text →
    x.next = none →
    ∃ w', store_tail w id entry = .ok w' ∧
      List_at w'.heap (w'.loglist id).log_head (l ++ [(entry, text)])

def TailsLive (w : Logger) : Prop := ∀ id < LOG_MAXLOGS, ∃ l, TailLive w id l

theorem Ended.live (h : Slot w.heap id (w.loglist id) l) (ht : Ended w id l) : TailLive w id l := by
  refine ⟨h.list, ht, fun entry x text hnew hx hholds hend => ?_⟩
  obtain ⟨heap, head, hstore, hlist, -, -⟩ := store_tail_spec h.list h.nodup ht hnew hx hholds hend
  refine ⟨_, hstore, ?_⟩
  rw [put_heap, put_self]
  exact hlist

/-- Every list is there, with its tail behind it. -/
def AllEnded (w : Logger) : Prop := ∃ lists, Arranged w lists ∧ ∀ id, Ended w id (lists id)

theorem all_ended_step (h : AllEnded w) {c : Call} (hc : ¬ Empties w c) :
    Yields (call w c) AllEnded := by
  obtain ⟨lists, harranged, hended⟩ := h
  intro w' hw'
  obtain ⟨id, l, he, hend⟩ := call_changes harranged c w' hw'
  refine ⟨_, harranged.step he, fun j => ?_⟩
  by_cases hj : j = id
  · subst hj
    rw [Function.update_self]
    exact hend (hended j) hc
  · rw [Function.update_of_ne hj, Ended, he.2.slots j hj]
    exact hended j

/-- Without entries, the head is NULL. The tail stays where it was. -/
theorem emptied_tail (hne : l ≠ []) (ht : Ended w id l) (htrim : Trimmed w id 0 l w')
    (hid : id < LOG_MAXLOGS) :
    ¬ TailsLive w' := by
  obtain ⟨heap, head, rfl, hlist, -⟩ := htrim
  rw [Nat.sub_zero, List.drop_length] at hlist
  intro hlive
  obtain ⟨l', hlive⟩ := hlive id hid
  have hhead := hlive.list
  have htail := hlive.tail
  rw [put_self] at hhead htail
  cases l' with
  | cons e l' => exact absurd (hlist.symm.trans hhead.1) (by simp)
  | nil =>
    obtain ⟨l, e, rfl⟩ := (List.eq_nil_or_concat' l).resolve_left hne
    have hlast : (w.loglist id).log_tail = .next e.1 := by
      rw [ht, end_of_snoc]
    exact absurd (hlast.symm.trans htail) (by simp)

theorem remove_all_breaks (h : Listed w.heap (w.loglist id) l) (ht : Ended w id l)
    (hne : (w.loglist id).entries ≠ 0) (hid : id < LOG_MAXLOGS) :
    ∃ w', remove_entries w id 0 = .ok w' ∧ ¬ TailsLive w' := by
  obtain ⟨w', hrun, htrim⟩ := remove_loop_spec 0 h.entries.ge h
  refine ⟨w', hrun, emptied_tail (l := l) ?_ ht htrim hid⟩
  rintro rfl
  exact hne h.entries

theorem empties_breaks (h : AllEnded w) {c : Call} (hc : Empties w c) :
    ∃ w', call w c = .ok w' ∧ ¬ TailsLive w' := by
  obtain ⟨lists, harranged, hended⟩ := h
  cases c with
  | log_set_lines_kept log_id count =>
    obtain ⟨hid, huse, rfl, hne⟩ := hc
    have hslot := harranged.slots log_id.toNat
    have hbreak :=
      @remove_all_breaks (w.put log_id.toNat fun log => { log with keep_entries := 0 }) log_id.toNat
        (lists log_id.toNat)
    rw [call, log_set_lines_kept, if_neg (not_not.mpr hid), if_neg (not_not.mpr huse)]
    rw [put_heap, put_self] at hbreak
    refine hbreak (hslot.toListed.same ⟨rfl, rfl, rfl, rfl⟩) ?_ hne (valid_lt hid)
    rw [Ended, put_self]
    exact hended log_id.toNat
  | log_close log_id =>
    obtain ⟨hid, huse, hne⟩ := hc
    obtain ⟨w1, log, hsets, hrun⟩ := log_close_spec hid huse
    have hslot := harranged.slots log_id.toNat
    obtain ⟨hlisted, -, hends⟩ := hsets.listed hslot
    rw [call, hrun]
    refine remove_all_breaks (l := lists log_id.toNat) hlisted (hends (hended log_id.toNat)) ?_
      (valid_lt hid)
    rw [hsets.slots, Function.update_self, hsets.list.entries]
    exact hne
  | _ => exact hc.elim

/-- In a run, the tails of all logs are good in every state exactly if no log with kept lines is
emptied. -/
theorem tail_live_iff (answers : Answers) (calls : List Call) :
    (∀ pre post w, calls = pre ++ post → pre.foldlM call (Log.log_initialize answers) = .ok w →
      TailsLive w) ↔
      ∀ pre c post w, calls = pre ++ c :: post →
      pre.foldlM call (Log.log_initialize answers) = .ok w →
      ¬ Empties w c := by
  refine run_iff AllEnded ?_ (fun w c h hc => all_ended_step h hc) (fun w c h hc =>
    empties_breaks h hc) ?_
    calls
  · rintro w ⟨lists, harranged, hended⟩ id -
    exact ⟨lists id, (hended id).live (harranged.slots id)⟩
  · exact ⟨_, initialize_arranged answers, fun _ => rfl⟩

/-- A log that keeps one line, and then none. -/
def emptied : List Call :=
  [.log_open (some (.cut (ascii "a"))), .log_set_lines_kept 0 1,
    .log_write_direct 0 ⟨.cut (ascii "x"), x_fits⟩, .log_set_lines_kept 0 0]

/-- The next line that is kept would be linked into a freed entry. -/
theorem emptied_dangles :
    ∃ w, emptied.foldlM call (Log.log_initialize generous) = .ok w ∧ ¬ TailsLive w ∧
    [.log_set_lines_kept 0 1, .log_write_direct 0 ⟨.cut (ascii "y"), by decide⟩].foldlM call w =
      .error .dangling := by
  refine ⟨_, rfl, fun hlive => ?_, rfl⟩
  obtain ⟨l, hlist, htail, -⟩ := hlive 0 (by decide)
  cases l with
  | nil => exact absurd htail (by decide)
  | cons e l => exact absurd hlist.1 (by simp)

theorem tail_not_always_live :
    ¬ ∀ (answers : Answers) (calls : List Call) w,
      calls.foldlM call (Log.log_initialize answers) = .ok w → TailsLive w := by
  intro h
  obtain ⟨w, hrun, hdead, -⟩ := emptied_dangles
  exact hdead (h generous emptied w hrun)

end Log
