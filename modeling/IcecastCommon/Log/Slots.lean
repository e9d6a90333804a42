import IcecastCommon.Log.Code
import IcecastCommon.Lib.Run
import Mathlib.Algebra.BigOperators.Group.List.Basic
import Mathlib.Algebra.GroupWithZero.Nat

/-!
# Kept lines

The entries of each log make a linked list, and no entry is in two of them. What the operations
do to the list of a log, and that they leave the lists of all other logs alone.
-/

namespace Log

open Lib

/-! ## One list -/

@[simp] theorem put_self (w : Logger) (id : Nat) (f : log_t → log_t) :
    (w.put id f).loglist id = f (w.loglist id) := by
  simp [Logger.put]

theorem put_other (w : Logger) {id j : Nat} (f : log_t → log_t) (h : j ≠ id) :
    (w.put id f).loglist j = w.loglist j := by
  simp [Logger.put, h]

@[simp] theorem put_put (w : Logger) (id : Nat) (f g : log_t → log_t) :
    (w.put id f).put id g = w.put id fun log => g (f log) := by
  simp [Logger.put]

@[simp] theorem put_heap (w : Logger) (id : Nat) (f : log_t → log_t) : (w.put id f).heap = w.heap :=
  rfl

theorem put_id (w : Logger) (id : Nat) : (w.put id fun log => log) = w := by
  simp [Logger.put]

/-- An entry with this text. -/
structure Holds (e : log_entry_t) (text : CString) : Prop where
  line : e.line = text.block
  len : e.len = text.bytes.length + 1
  fits : e.len < 2 ^ 32

/-- The addresses and the texts of the entries of a list. -/
abbrev Kept := List (Nat × CString)

/-- The bytes of all texts, with their NULs. -/
def total_of (l : Kept) : Nat := (l.map fun e => e.2.bytes.length + 1).sum

/-- The pointer behind the last entry. -/
def end_of (id : Nat) (l : Kept) : Tail :=
  match l.getLast? with
  | none => .log_head id
  | some e => .next e.1

@[simp] theorem total_of_nil : total_of [] = 0 := rfl

@[simp] theorem total_of_cons (e : Nat × CString) (l : Kept) :
    total_of (e :: l) = e.2.bytes.length + 1 + total_of l := by
  simp [total_of]

@[simp] theorem total_of_append (l l' : Kept) : total_of (l ++ l') = total_of l + total_of l' := by
  simp [total_of]

@[simp] theorem end_of_nil (id : Nat) : end_of id [] = .log_head id := rfl

@[simp] theorem end_of_snoc (id : Nat) (l : Kept) (e : Nat × CString) :
    end_of id (l ++ [e]) = .next e.1 := by
  simp [end_of]

/-- The list that starts at `p`. -/
abbrev List_at (heap : Heap log_entry_t) (p : Ptr) (l : Kept) : Prop :=
  Chain log_entry_t.next Holds heap p l

/-- The list of a log, with its counters. -/
structure Listed (heap : Heap log_entry_t) (log : log_t) (l : Kept) : Prop where
  list : List_at heap log.log_head l
  nodup : (addresses l).Nodup
  entries : log.entries = l.length
  total : log.total = total_of l % 2 ^ 64

theorem remove_head_spec {w : Logger} {id : Nat} {e : Nat × CString} {l : Kept}
    (hlist : List_at w.heap (w.loglist id).log_head (e :: l)) (hnodup : (addresses (e :: l)).Nodup)
    (htotal : (w.loglist id).total = total_of (e :: l) % 2 ^ 64) :
    ∃ heap head, remove_head w id = .ok ({ w with heap := heap }.put id fun log =>
        { log with log_head := head, total := total_of l % 2 ^ 64 }) ∧
      List_at heap head l ∧ w.heap.Freed heap [e.1] := by
  obtain ⟨hhead, x, hget, hx, hrest⟩ := hlist
  obtain ⟨heap, hfree, hfreed⟩ := Heap.free_eq hget
  refine ⟨heap, x.next, ?_, hrest.frame fun a ha => ?_, hfreed⟩
  · have htotal' : ((w.loglist id).total + 2 ^ 64 - x.len) % 2 ^ 64 = total_of l % 2 ^ 64 := by
      have hlen := hx.len
      have hfits := hx.fits
      rw [htotal, total_of_cons, ← hlen]
      omega
    unfold remove_head
    rw [hhead]
    refine run_bind (Heap.load_eq hget) (run_bind hfree ?_)
    simp only [Logger.put, htotal', pure_eq_ok]
  · apply hfreed.live
    rw [List.mem_singleton]
    rintro rfl
    exact (List.nodup_cons.mp hnodup).1 ha

/-- The slot, with another list. -/
def relisted (log : log_t) (head : Ptr) (l : Kept) : log_t :=
  { log with log_head := head, total := total_of l % 2 ^ 64, entries := l.length }

/-- All but the last `count` entries are gone. -/
def Trimmed (w : Logger) (id count : Nat) (l : Kept) (w' : Logger) : Prop :=
  ∃ heap head, w' = { w with heap := heap }.put id (relisted · head (l.drop (l.length - count))) ∧
    List_at heap head (l.drop (l.length - count)) ∧
    w.heap.Freed heap (addresses (l.take (l.length - count)))

theorem trimmed_all {w : Logger} {id count : Nat} {l : Kept} (hle : l.length ≤ count)
    (h : Listed w.heap (w.loglist id) l) : Trimmed w id count l w := by
  rw [Trimmed, Nat.sub_eq_zero_of_le hle, List.drop_zero, List.take_zero]
  refine ⟨w.heap, (w.loglist id).log_head, ?_, h.list, Heap.Freed.refl _⟩
  have hsame : relisted (w.loglist id) (w.loglist id).log_head l = w.loglist id := by
    rw [relisted, ← h.total, ← h.entries]
  rw [Logger.put, hsame, Function.update_eq_self]

theorem remove_loop_spec {id : Nat} (count : Nat) {rounds : Nat} {w : Logger} {l : Kept}
    (hrounds : l.length ≤ rounds) (h : Listed w.heap (w.loglist id) l) :
    ∃ w', remove_loop id count rounds w = .ok w' ∧ Trimmed w id count l w' := by
  induction rounds generalizing w l with
  | zero => exact ⟨w, rfl, trimmed_all (by omega) h⟩
  | succ rounds ih =>
    by_cases hmore : (w.loglist id).entries > count
    · cases l with
      | nil => simp [h.entries] at hmore
      | cons e l =>
        obtain ⟨heap1, head1, hremove, hlist1, hfreed1⟩ := remove_head_spec h.list h.nodup h.total
        have hcount : l.length + 1 - count = l.length - count + 1 := by
          rw [h.entries, List.length_cons] at hmore
          omega
        have hlisted : Listed heap1 { w.loglist id with
            log_head := head1, total := total_of l % 2 ^ 64,
            entries := (w.loglist id).entries - 1 } l :=
          ⟨hlist1, (List.nodup_cons.mp h.nodup).2, by simp [h.entries], rfl⟩
        obtain ⟨w', hloop, heap, head, hw', hlist', hfreed'⟩ := ih (w :=
            { w with heap := heap1 }.put id fun log =>
              { log with
                log_head := head1, total := total_of l % 2 ^ 64, entries := log.entries - 1 })
          (Nat.le_of_succ_le_succ hrounds) (by simpa using hlisted)
        refine ⟨w', ?_, heap, head, ?_, ?_, ?_⟩
        · unfold remove_loop
          rw [if_pos hmore]
          refine run_bind hremove ?_
          rw [put_put]
          exact hloop
        all_goals rw [List.length_cons, hcount]
        · rw [List.drop_succ_cons, hw']
          simp [Logger.put, relisted]
        · exact hlist'
        · exact hfreed1.trans hfreed'
    · refine ⟨w, ?_, trimmed_all (by have := h.entries; omega) h⟩
      unfold remove_loop
      rw [if_neg hmore]
      rfl

/-- A new entry is linked behind the last one. -/
theorem store_tail_spec {w : Logger} {id entry : Nat} {l : Kept} {x : log_entry_t} {text : CString}
    (hlist : List_at w.heap (w.loglist id).log_head l) (hnodup : (addresses l).Nodup)
    (htail : (w.loglist id).log_tail = end_of id l) (hnew : entry ∉ addresses l)
    (hx : w.heap.get entry = some x) (hholds : Holds x text) (hend : x.next = none) :
    ∃ heap head, store_tail w id entry =
      .ok ({ w with heap := heap }.put id fun log => { log with log_head := head }) ∧
      List_at heap head (l ++ [(entry, text)]) ∧ heap.size = w.heap.size ∧
      ∀ a ∉ addresses l, heap.get a = w.heap.get a := by
  unfold store_tail
  rw [htail]
  rcases List.eq_nil_or_concat' l with rfl | ⟨l, ⟨last, v⟩, rfl⟩
  · exact ⟨w.heap, some entry, rfl, ⟨rfl, x, hx, hholds, hend⟩, rfl, fun _ _ => rfl⟩
  · rw [end_of_snoc]
    obtain ⟨y, hy⟩ := hlist.live (a := last) (by simp)
    obtain ⟨heap, hupdate, hsize, hset, hother⟩ :=
      Heap.update_eq hy fun e => { e with next := some entry }
    rw [addresses_append, List.mem_append, not_or] at hnew
    have hne : entry ≠ last := by simpa using hnew.2
    refine ⟨heap, (w.loglist id).log_head, run_bind hupdate ?_, ?_, hsize, fun a ha => hother a ?_⟩
    · exact congrArg Except.ok (put_id _ id).symm
    · rw [List.append_assoc]
      refine hlist.snoc hnodup hset (fun _ => rfl) (fun e he =>
        ⟨he.line, he.len, he.fits⟩) ?_ hholds hend fun b hb =>
        hother b ?_
      · rw [hother entry hne, hx]
      · rintro rfl
        rw [addresses_append, List.nodup_append] at hnodup
        exact hnodup.2.2 b hb b (by simp) rfl
    · rintro rfl
      exact ha (by simp)

theorem store_tail_dead {w : Logger} {id entry a : Nat} (htail : (w.loglist id).log_tail = .next a)
    (hdead : w.heap.get a = none) : store_tail w id entry = .error .dangling := by
  unfold store_tail
  rw [htail]
  simp only [Heap.update_dead hdead]
  rfl

/-- The line that is written. -/
def text_of (pre line : CString) : CString where
  bytes := pre.bytes ++ line.bytes ++ [LF]
  nulFree := by
    simp only [List.mem_append, List.mem_singleton, not_or]
    exact ⟨⟨pre.nulFree, line.nulFree⟩, by decide⟩

/-- The list after a line was added to at most `keep` lines. -/
def appended (keep : Nat) (l : Kept) (e : Nat × CString) : Kept :=
  if l.length ≥ keep then (l ++ [e]).tail else l ++ [e]

/-- A line takes one answer of each function it calls. -/
def Answers.next_line (answers : Answers) : Answers :=
  { answers with calloc := fun n => answers.calloc (n + 1)
                 malloc := fun n => answers.malloc (n + 1)
                 fprintf := fun n => answers.fprintf (n + 1) }

theorem snprintf_whole (text : CString) :
    snprintf (text.bytes.length + 1) [] 0 (text.bytes.length + 1) text.bytes = .ok text.block := by
  unfold snprintf
  rw [if_neg (Nat.succ_ne_zero _), if_pos (by simp)]
  simp [CString.block]

theorem nodup_snoc {l : Kept} {entry : Nat} (text : CString) (hnodup : (addresses l).Nodup)
    (hnew : entry ∉ addresses l) : (addresses (l ++ [(entry, text)])).Nodup := by
  rw [addresses_append, List.nodup_append]
  refine ⟨hnodup, by simp, ?_⟩
  rintro a ha b hb rfl
  rw [addresses_cons, addresses_nil, List.mem_singleton] at hb
  subst hb
  exact hnew ha

theorem link_entry_spec {w : Logger} {id entry : Nat} (len : Nat) {l : Kept} {x : log_entry_t}
    {text : CString} (hlist : List_at w.heap (w.loglist id).log_head l)
    (hnodup : (addresses l).Nodup) (hentries : (w.loglist id).entries = l.length)
    (htotal : (w.loglist id).total = total_of (l ++ [(entry, text)]) % 2 ^ 64)
    (htail : (w.loglist id).log_tail = end_of id l) (hnew : entry ∉ addresses l)
    (hx : w.heap.get entry = some x) (hholds : Holds x text) (hend : x.next = none) :
    ∃ heap head, link_entry w id entry len =
      .ok ((len : Int), { w with heap := heap }.put id fun log =>
        { relisted log head (appended log.keep_entries l (entry, text)) with
          log_tail := .next entry }) ∧
      List_at heap head (appended (w.loglist id).keep_entries l (entry, text)) ∧
      heap.size = w.heap.size ∧
      ∀ a, a ≠ entry → a ∉ addresses l → heap.get a = w.heap.get a := by
  obtain ⟨heap, head, hstore, hlist1, hsize, hsame⟩ :=
    store_tail_spec hlist hnodup htail hnew hx hholds hend
  obtain ⟨w1, hw1⟩ : ∃ w1, w1 = { w with heap := heap }.put id fun log =>
      { log with log_head := head, log_tail := .next entry } := ⟨_, rfl⟩
  have hlink : link_entry w id entry len =
      if l.length ≥ (w.loglist id).keep_entries then (do return (len, ← remove_head w1 id))
      else .ok (len, w1.put id fun log => { log with entries := log.entries + 1 }) := by
    unfold link_entry
    refine run_bind hstore ?_
    rw [put_put, ← hw1]
    simp only [hw1, put_self, hentries, pure_eq_ok]
  have hhead : List_at w1.heap (w1.loglist id).log_head (l ++ [(entry, text)]) := by
    rw [hw1]
    simpa using hlist1
  have htotal1 : (w1.loglist id).total = total_of (l ++ [(entry, text)]) % 2 ^ 64 := by
    rw [hw1]
    simpa using htotal
  rw [hlink]
  unfold appended
  by_cases hfull : l.length ≥ (w.loglist id).keep_entries
  · rw [if_pos hfull, if_pos hfull]
    obtain ⟨e, rest, hcons⟩ := List.exists_cons_of_ne_nil (show l ++ [(entry, text)] ≠ [] by simp)
    have hlength : l.length = rest.length := by simpa using congrArg List.length hcons
    have hnodup1 := nodup_snoc text hnodup hnew
    rw [hcons] at hhead hnodup1 htotal1 ⊢
    obtain ⟨heap', head', hremove, hlist2, hfreed⟩ := remove_head_spec hhead hnodup1 htotal1
    refine ⟨heap', head', ?_, hlist2, ?_, ?_⟩
    · refine run_bind hremove ?_
      rw [hw1]
      have hkeep : (w.loglist id).keep_entries ≤ rest.length := hlength ▸ hfull
      simp [Logger.put, relisted, hlength, hkeep, hentries]
    · rw [hfreed.size, hw1]
      exact hsize
    · intro a hne ha
      rw [hfreed.live, hw1]
      · exact hsame a ha
      · have hmem : a ∉ addresses (e :: rest) := by
          rw [← hcons, addresses_append]
          simpa using ⟨ha, hne⟩
        rw [List.mem_singleton]
        rintro rfl
        exact hmem (by simp)
  · rw [if_neg hfull, if_neg hfull]
    refine ⟨heap, head, ?_, hlist1, hsize, fun a _ ha => hsame a ha⟩
    rw [hw1]
    simp [Logger.put, relisted, hfull, hentries, htotal]

/-- The entry of a line. -/
def entry_of (text : CString) : log_entry_t :=
  { line := text.block, len := text.bytes.length + 1, next := none }

/-- The state before a new entry is linked. -/
def with_entry (w : Logger) (id : Nat) (file : FILE) (text : CString) : Logger :=
  { w with heap := (w.heap.alloc (entry_of text)).2, answers := w.answers.next_line
           events := w.events ++ [Event.fprintf file text.bytes] }.put id fun log =>
    { log with total := (log.total + (text.bytes.length + 1)) % 2 ^ 64 }

theorem text_of_length (pre line : CString) :
    (text_of pre line).bytes.length + 1 = pre.bytes.length + line.bytes.length + 2 := by
  simp [text_of, Nat.add_assoc]

theorem malloc_grants {w : Logger} {size : Nat} (hmalloc : w.answers.malloc 0 = true)
    (hsize : size < 2 ^ 63) :
    w.malloc size =
      (true,
        { w with answers := { w.answers with malloc := fun n => w.answers.malloc (n + 1) } }) := by
  unfold Logger.malloc
  rw [hmalloc, decide_eq_true hsize, Bool.true_and]

theorem create_log_entry_link {w : Logger} {id : Nat} {pre line : CString} {file : FILE}
    (hkeep : (w.loglist id).keep_entries ≠ 0) (hfile : (w.loglist id).logfile = some file)
    (hcalloc : w.answers.calloc 0 = true) (hmalloc : w.answers.malloc 0 = true)
    (hfits : (text_of pre line).bytes.length + 1 < 2 ^ 32) :
    create_log_entry w id pre line =
      link_entry (with_entry w id file (text_of pre line)) id w.heap.size
        ((text_of pre line).bytes.length + 1) := by
  have hlen := text_of_length pre line
  have hbytes : pre.bytes ++ line.bytes ++ [LF] = (text_of pre line).bytes := rfl
  generalize text_of pre line = text at hlen hbytes hfits ⊢
  have hc : w.calloc = (true, { w with answers :=
      { w.answers with calloc := fun n => w.answers.calloc (n + 1) } }) := by
    simp [Logger.calloc, hcalloc]
  have hm :
      Logger.malloc
          { w with answers := { w.answers with calloc := fun n => w.answers.calloc (n + 1) } }
          (text.bytes.length + 1) =
        (true, { w with
          answers := { w.answers with calloc := fun n => w.answers.calloc (n + 1)
                                      malloc := fun n => w.answers.malloc (n + 1) } }) :=
    malloc_grants hmalloc (by omega)
  unfold create_log_entry
  simp only [if_neg hkeep, hbytes, ← hlen, Nat.mod_eq_of_lt hfits, hc, hm]
  refine run_bind (snprintf_whole text) ?_
  refine run_bind (cstring_append text.nulFree []) ?_
  refine run_bind (a := (w.answers.fprintf 0 text.bytes, with_entry w id file text)) ?_ ?_
  · simp only [Logger.fprintf, put_self, hfile]
    rfl
  · rfl

theorem create_log_entry_spec {w : Logger} {id : Nat} {pre line : CString} {l : Kept} {file : FILE}
    (hkeep : (w.loglist id).keep_entries ≠ 0) (hfile : (w.loglist id).logfile = some file)
    (hcalloc : w.answers.calloc 0 = true) (hmalloc : w.answers.malloc 0 = true)
    (hfits : (text_of pre line).bytes.length + 1 < 2 ^ 32)
    (h : Listed w.heap (w.loglist id) l) (htail : (w.loglist id).log_tail = end_of id l) :
    ∃ heap head,
      create_log_entry w id pre line = .ok ((((text_of pre line).bytes.length + 1 : Nat) : Int),
        { w with
          heap := heap, answers := w.answers.next_line
          events := w.events ++ [Event.fprintf file (text_of pre line).bytes] }.put id fun log =>
          { relisted log head (appended log.keep_entries l (w.heap.size, text_of pre line)) with
            log_tail := .next w.heap.size }) ∧
      List_at heap head (appended (w.loglist id).keep_entries l (w.heap.size, text_of pre line)) ∧
      heap.size = w.heap.size + 1 ∧ ∀ a < w.heap.size, a ∉ addresses l →
      heap.get a = w.heap.get a := by
  rw [create_log_entry_link hkeep hfile hcalloc hmalloc hfits]
  generalize text_of pre line = text at hfits ⊢
  obtain ⟨w1, hw1⟩ : ∃ w1, w1 = with_entry w id file text := ⟨_, rfl⟩
  have hold (a : Nat) (ha : a < w.heap.size) : w1.heap.get a = w.heap.get a := by
    rw [hw1]
    exact Heap.get_alloc w.heap _ ha
  have hlist1 : List_at w1.heap (w1.loglist id).log_head l := by
    rw [show (w1.loglist id).log_head = (w.loglist id).log_head by simp [hw1, with_entry]]
    exact h.list.frame fun a ha => hold a (h.list.lt ha)
  have htotal1 : (w1.loglist id).total = total_of (l ++ [(w.heap.size, text)]) % 2 ^ 64 := by
    rw [hw1, with_entry, put_self, h.total, total_of_append, Nat.mod_add_mod]
    simp
  have hx1 : w1.heap.get w.heap.size = some (entry_of text) := by
    rw [hw1]
    exact Heap.get_alloc_self w.heap _
  obtain ⟨heap, head, hlink, hlist', hsize, hsame⟩ :=
    link_entry_spec (text.bytes.length + 1) hlist1 h.nodup
      (by simpa [hw1, with_entry] using h.entries) htotal1 (by simpa [hw1, with_entry] using htail)
      (fun hmem => lt_irrefl _ (h.list.lt hmem)) hx1 ⟨rfl, rfl, hfits⟩ rfl
  refine ⟨heap, head, ?_, ?_, ?_, fun a ha hmem => ?_⟩
  · rw [← hw1, hlink, hw1]
    simp [Logger.put, relisted, with_entry]
  · simpa [hw1, with_entry] using hlist'
  · rw [hsize, hw1, with_entry, put_heap, Heap.size_alloc]
  · rw [hsame a ha.ne hmem, hold a ha]

/-- A line that is kept needs memory, and an open file. -/
theorem create_log_entry_ok {w : Logger} {id : Nat} {pre line : CString} {r : Int × Logger}
    (hkeep : (w.loglist id).keep_entries ≠ 0) (hrun : create_log_entry w id pre line = .ok r) :
    w.answers.calloc 0 = true ∧ w.answers.malloc 0 = true ∧
      ∃ file, (w.loglist id).logfile = some file := by
  unfold create_log_entry at hrun
  rw [if_neg hkeep] at hrun
  split at hrun
  · exact absurd hrun (by simp)
  next w1 hc =>
    dsimp only at hrun
    split at hrun
    · exact absurd hrun (by simp)
    next w2 hm =>
      obtain ⟨hcalloc, rfl⟩ := Prod.mk.inj hc
      obtain ⟨hmalloc, rfl⟩ := Prod.mk.inj hm
      obtain ⟨buf, -, hrun⟩ := bind_eq_ok.mp hrun
      obtain ⟨text, -, hrun⟩ := bind_eq_ok.mp hrun
      obtain ⟨printed, hprint, -⟩ := bind_eq_ok.mp hrun
      refine ⟨hcalloc, (Bool.and_eq_true_iff.mp hmalloc).1, ?_⟩
      rw [put_self] at hprint
      change Logger.fprintf _ (w.loglist id).logfile text = .ok printed at hprint
      cases hfile : (w.loglist id).logfile with
      | some file => exact ⟨file, rfl⟩
      | none =>
        rw [hfile] at hprint
        exact absurd hprint (by simp [Logger.fprintf])

theorem create_log_entry_linked {w : Logger} {id : Nat} {pre line : CString} {r : Int × Logger}
    (hkeep : (w.loglist id).keep_entries ≠ 0) (hfits : (text_of pre line).bytes.length + 1 < 2 ^ 32)
    (hrun : create_log_entry w id pre line = .ok r) :
    ∃ file, (w.loglist id).logfile = some file ∧
      link_entry (with_entry w id file (text_of pre line)) id w.heap.size
        ((text_of pre line).bytes.length + 1) = .ok r := by
  obtain ⟨hcalloc, hmalloc, file, hfile⟩ := create_log_entry_ok hkeep hrun
  rw [create_log_entry_link hkeep hfile hcalloc hmalloc hfits] at hrun
  exact ⟨file, hfile, hrun⟩

end Log
