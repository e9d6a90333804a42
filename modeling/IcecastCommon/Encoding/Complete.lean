import IcecastCommon.Encoding.Progress

/-!
# Complete messages and their ends

Which fragmentations of a message are decoded to its last byte, and for which the end is seen
as soon as it comes in.
-/

namespace Encoding

open Lib

variable {σ : Type} {cb : ReadCallback σ} {left : σ → Bytes} {handed : σ → List Bytes} {m : Message}
  {x0 : Session σ} {rooms : Nat → Room}

/-! ## Delivery -/

/-- For each size line there is a fragment that ends with it or later, and one more for each
line after it. The line of the last chunk counts. -/
def KeepsUp (m : Message) (fragments : List Bytes) : Prop :=
  InTime (lineEnds 0 m.lines) (fragmentEnds 0 fragments)

/-- The bytes of the raw buffer that the decoder has still to look at. -/
def unread (enc : httpp_encoding_t) : Bytes :=
  (enc.buf_read_raw.getD []).drop enc.buf_read_raw_offset

/-- After some calls the reader has all of the message, and nothing that was handed over stays in
the raw buffer for ever. -/
structure Complete (cb : ReadCallback σ) (x0 : Session σ) (rooms : Nat → Room)
    (m : Message) : Prop where
  delivered : ∃ n x, after cb x0 rooms n = .ok x ∧ x.out = bodies m.chunks
  consumed : ∀ i x, after cb x0 rooms i = .ok x → ∃ j y, after cb x0 rooms (i + j) = .ok y ∧
    unread y.enc = []

theorem Tracked.keepsUp_iff {x : Session σ} {ls : List Chunk} {owed d : Bytes}
    (h : Tracked left handed m x ls owed d) : KeepsUp m (handed x.user) ↔ ls = [] := by
  rw [KeepsUp, ← backlog_eq_nil_iff (lineEnds_sorted 0 m.lines) (fragmentEnds_sorted 0 _), h.lines,
    lineEnds_eq_nil]

theorem Tracked.unread_iff {x : Session σ} {ls : List Chunk} {owed d : Bytes}
    (h : Tracked left handed m x ls owed d) (hleft : left x.user = []) :
    unread x.enc = [] ↔ ls = [] := by
  have hphase := h.follows.1.phase
  rw [hleft] at hphase
  cases hphase with
  | @header _ u more _ _ raw coming =>
    rw [unread, raw.left]
    refine iff_of_false (fun hu => ?_) more
    obtain ⟨c, tl, rfl⟩ := List.exists_cons_of_ne_nil more
    rw [hu] at coming
    simp [text, crlf] at coming
  | body _ _ _ _ coming few =>
    have hlen := congrArg List.length coming
    simp [crlf] at hlen
    omega
  | stray _ _ raw none_left => simp [unread, raw.left, (none_left trivial rfl).1]
  | eof _ _ raw none_left => simp [unread, raw.left, (none_left trivial rfl).1]

/-- When nothing is left to come, what was read decides. -/
theorem complete_iff (hcb : Fragments cb left handed) (h0 : Tracked left handed m x0 m.lines [] [])
    {x : Session σ} {ls : List Chunk} {owed : Bytes} {n : Nat} (hx : after cb x0 rooms n = .ok x)
    (h : Tracked left handed m x ls owed []) (hleft : left x.user = []) :
    Complete cb x0 rooms m ↔ KeepsUp m (handed x.user) := by
  rw [h.keepsUp_iff]
  constructor
  · intro hcomplete
    obtain ⟨j, y, hy, hunread⟩ := hcomplete.consumed n x hx
    obtain ⟨y', owed', hy', hytrack, hyleft, -⟩ := tracked_stays hcb hx h hleft j
    obtain rfl : y = y' := Except.ok.inj (hy.symm.trans hy')
    exact (hytrack.unread_iff hyleft).mp hunread
  · rintro rfl
    refine ⟨⟨n, x, hx, ?_⟩, fun i y hy => ?_⟩
    · have hall := h.out hleft
      rwa [bodies, List.flatMap_nil, List.append_nil] at hall
    · obtain ⟨y', ls', owed', d', hy', hytrack⟩ := tracked_always hcb h0 rooms i
      obtain rfl : y = y' := Except.ok.inj (hy.symm.trans hy')
      obtain ⟨k, z, ls'', owed'', hz, -, hzleft, hztrack, -⟩ := tracked_drains hcb hy hytrack
      refine ⟨k, z, hz, (hztrack.unread_iff hzleft).mpr ?_⟩
      -- All sessions at the end got the same fragments.
      rw [← hztrack.keepsUp_iff, tracked_handed hcb hx h hleft hz hztrack hzleft, h.keepsUp_iff]

/-- **Completeness.** A message is decoded to its end, with nothing left in the raw buffer, exactly
when the fragments keep up with its size lines. -/
theorem reads_complete_iff (hcb : Fragments cb left handed) {grants : Grants}
    {enc : httpp_encoding_t} (hnew : Fresh grants enc) (hgen : Generous grants) (m : Message)
    {s : σ} (hs : left s = m.text []) (hh : handed s = []) (rooms : Nat → Room) :
    ∃ n x, after cb ⟨enc, s, []⟩ rooms n = .ok x ∧ left x.user = [] ∧
      (Complete cb ⟨enc, s, []⟩ rooms m ↔ KeepsUp m (handed x.user)) := by
  have h0 : Tracked left handed m ⟨enc, s, []⟩ m.lines [] [] := hnew.tracked hgen m hs hh
  obtain ⟨n, x, ls, owed, hx, -, hleft, h, -⟩ := tracked_drains hcb (after_zero _ rooms) h0
  exact ⟨0 + n, x, hx, hleft, complete_iff hcb h0 hx h hleft⟩

/-- Two chunks. -/
def greeting : Message where
  chunks :=
    [⟨ascii "5", ascii "hello", by decide, by decide +kernel, by decide, by decide⟩,
      ⟨ascii "5", ascii "world", by decide, by decide +kernel, by decide, by decide⟩]
  last := zero
  filled := by decide
  empty := zero_body

/-- There is always memory. -/
def plenty : Grants := fun _ _ _ => true

/-- A new decoder and a message on its way. -/
def opening (m : Message) (sizes : List Nat) : Session Network :=
  ⟨chunked_encoding plenty, { rest := m.text [], sizes }, []⟩

theorem opening_tracked (m : Message) (sizes : List Nat) :
    Tracked Network.rest Network.handed m (opening m sizes) m.lines [] [] :=
  (fresh_chunked rfl).tracked (fun _ _ _ => rfl) m rfl rfl

/-- When both chunks come in one fragment, the second stays in the raw buffer for ever. -/
theorem reads_incomplete :
    ¬ ∀ (cb : ReadCallback Network) (left : Network → Bytes) (handed : Network → List Bytes)
      (grants : Grants) (enc : httpp_encoding_t) (m : Message) (s : Network) (rooms : Nat → Room),
      Fragments cb left handed → Fresh grants enc → Generous grants → left s = m.text [] →
      handed s = [] →
        Complete cb ⟨enc, s, []⟩ rooms m := by
  intro h
  have hcomplete :=
    h Network.recv Network.rest Network.handed plenty (chunked_encoding plenty) greeting
      { rest := greeting.text [], sizes := [] } (fun _ => sixteen) Network.recv_fragments
      (fresh_chunked rfl) (fun _ _ _ => rfl) rfl rfl
  -- The first call gets everything.
  have hone : (match after Network.recv (opening greeting []) (fun _ => sixteen) 1 with
      | .ok x => decide (x.user.rest = [] ∧ x.user.handed = [greeting.text []])
      | .error _ => false) = true := by decide +kernel
  obtain ⟨x, ls, owed, d, hx, htrack⟩ :=
    tracked_always Network.recv_fragments (opening_tracked greeting []) (fun _ => sixteen) 1
  rw [hx] at hone
  obtain ⟨hrest, hhanded⟩ := of_decide_eq_true hone
  obtain ⟨k, z, ls', owed', hz, -, hleft, hztrack, hsame⟩ :=
    tracked_drains Network.recv_fragments hx htrack
  have hkeeps :=
    (complete_iff Network.recv_fragments (opening_tracked greeting []) hz hztrack hleft).mp
      hcomplete
  rw [hsame hrest, hhanded] at hkeeps
  have hnot : ¬ InTime (lineEnds 0 greeting.lines) (fragmentEnds 0 [greeting.text []]) := by decide
  exact hnot hkeeps

/-- The same message, with a fragment for each of its lines. -/
theorem reads_complete_greeting :
    ∃ n x, after Network.recv (opening greeting [10, 10]) (fun _ => sixteen) n = .ok x ∧
      x.user.rest = [] ∧
      (Complete Network.recv (opening greeting [10, 10]) (fun _ => sixteen) greeting ↔
      KeepsUp greeting x.user.handed) :=
  reads_complete_iff Network.recv_fragments (fresh_chunked rfl) (fun _ _ _ =>
    rfl) greeting rfl rfl _

/-! ## The end of the stream -/

/-- The fragments keep up with all size lines, and no fragment is to spare. -/
def JustInTime (ls : List Chunk) (fragments : List Bytes) : Prop :=
  InTime (lineEnds 0 ls) (fragmentEnds 0 fragments) ∧
  NoSlack (lineEnds 0 ls) (fragmentEnds 0 fragments)

/-- The decoder has seen the end, and says so whenever it is asked. -/
def EndSeen (cb : ReadCallback σ) (x0 : Session σ) (rooms : Nat → Room) (n : Nat)
    (x : Session σ) : Prop :=
  x.enc.bytes_till_eof = 0 ∧
    ∀ k y, after cb x0 rooms (n + k) = .ok y → httpp_encoding_eof y.enc none y.user = 1

theorem Message.text_ne_nil (m : Message) : m.text [] ≠ [] := by
  rw [Message.text]
  cases h : m.lines with
  | nil => exact absurd h m.lines_ne_nil
  | cons c ls => simp [Encoding.text, crlf]

theorem At.announces {ample : Prop} {further rest owed : Bytes} {enc : httpp_encoding_t}
    {ls : List Chunk} {user : σ} (h : At ample further enc rest ls owed [])
    (heof : enc.bytes_till_eof = 0) :
    httpp_encoding_eof enc none user = 1 := by
  unfold httpp_encoding_eof
  rw [h.decoded.size_sub_eq, if_neg (by simp), if_pos heof]

theorem last_call (hcb : Fragments cb left handed) (h0 : Tracked left handed m x0 m.lines [] [])
    (rooms : Nat → Room) (hleft : left x0.user ≠ []) :
    ∃ n x y ls owed d, after cb x0 rooms n = .ok x ∧ Tracked left handed m x ls owed d ∧
      left x.user ≠ [] ∧
      after cb x0 rooms (n + 1) = .ok y ∧ left y.user = [] := by
  obtain ⟨k, z, ls, owed, hz, -, hzleft, -, -⟩ := tracked_drains hcb (after_zero _ rooms) h0
  have hex : ∃ k z, after cb x0 rooms k = .ok z ∧ left z.user = [] := ⟨0 + k, z, hz, hzleft⟩
  classical
  obtain ⟨y, hy, hyleft⟩ := Nat.find_spec hex
  cases hn : Nat.find hex with
  | zero =>
    rw [hn] at hy
    obtain rfl : x0 = y := Except.ok.inj hy
    exact absurd hyleft hleft
  | succ n =>
    obtain ⟨x, ls', owed', d, hx, h⟩ := tracked_always hcb h0 rooms n
    refine ⟨n, x, y, ls', owed', d, hx, h, fun hnil => ?_, hn ▸ hy, hyleft⟩
    exact Nat.find_min hex (by omega : n < Nat.find hex) ⟨x, hx, hnil⟩

/-- **The end.** The call that gets the last byte of a message sees the end exactly when the last
size line is read in that call. -/
theorem reads_end_iff (hcb : Fragments cb left handed) {grants : Grants} {enc : httpp_encoding_t}
    (hnew : Fresh grants enc) (hgen : Generous grants) (m : Message) {s : σ}
    (hs : left s = m.text []) (hh : handed s = []) (rooms : Nat → Room) :
    ∃ n x y, after cb ⟨enc, s, []⟩ rooms n = .ok x ∧ left x.user ≠ [] ∧
      after cb ⟨enc, s, []⟩ rooms (n + 1) = .ok y ∧ left y.user = [] ∧
      (EndSeen cb ⟨enc, s, []⟩ rooms (n + 1) y ↔ JustInTime m.lines (handed y.user)) := by
  have h0 : Tracked left handed m ⟨enc, s, []⟩ m.lines [] [] := hnew.tracked hgen m hs hh
  obtain ⟨n, x, y, ls, owed, d, hx, h, hleft, hy, hyleft⟩ :=
    last_call hcb h0 rooms (by rw [hs]; exact m.text_ne_nil)
  refine ⟨n, x, y, hx, hleft, hy, hyleft, ?_⟩
  obtain ⟨y', ls', owed', d', hcall, -, hytrack, hcase⟩ := tracked_step hcb (rooms n) h
  obtain rfl : y = y' := Except.ok.inj (hy.symm.trans ((after_succ hx).trans hcall))
  rcases hcase with ⟨-, hstill⟩ | htook
  · exact absurd (hstill.same_left.symm.trans hyleft) hleft
  obtain ⟨f, -, hf, hhanded⟩ := htook.fragment
  have hend : EndSeen cb ⟨enc, s, []⟩ rooms (n + 1) y ↔ ls' = [] ∧ ls ≠ [] := by
    rw [EndSeen, htook.ended hyleft, and_comm (a := ls' = [])]
    refine and_iff_left_of_imp fun hlines k z hz => ?_
    obtain rfl := htook.drained hlines.2
    obtain ⟨z', owed'', hz', hztrack, -, heof, -⟩ := tracked_stays hcb hy hytrack hyleft k
    obtain rfl : z = z' := Except.ok.inj (hz.symm.trans hz')
    exact hztrack.follows.1.announces (heof.trans ((htook.ended hyleft).mpr hlines))
  have hsum := h.sum
  rw [hf, hyleft, List.append_nil] at hsum
  have hready : ∀ j ∈ lineEnds 0 m.lines, j ≤ 0 + (handed x.user).flatten.length + f.length := by
    intro j hj
    have := (lineEnds_bounds hj).2
    rw [Nat.zero_add, hsum]
    rwa [Nat.zero_add] at this
  have hlines := h.lines
  have hlines' := hytrack.lines
  rw [hhanded, fragmentEnds_concat] at hlines'
  have hsorted := fragmentEnds_sorted 0 (handed y.user)
  rw [hhanded, fragmentEnds_concat] at hsorted
  rw [hend, JustInTime, hhanded, fragmentEnds_concat,
    ← backlog_last_iff (lineEnds_sorted 0 m.lines) hsorted hready, hlines, hlines', lineEnds_eq_nil,
    ne_eq, ne_eq, lineEnds_eq_nil]

/-- A message without a body. -/
def farewell : Message where
  chunks := []
  last := zero
  filled := by simp
  empty := zero_body

/-- When the last `"\r\n"` comes alone, the end is not seen. -/
theorem reads_no_end :
    ¬ ∀ (cb : ReadCallback Network) (left : Network → Bytes) (handed : Network → List Bytes)
      (grants : Grants) (enc : httpp_encoding_t) (m : Message) (s : Network) (rooms : Nat → Room)
      (n : Nat) (x y : Session Network),
      Fragments cb left handed → Fresh grants enc → Generous grants → left s = m.text [] →
      handed s = [] →
        after cb ⟨enc, s, []⟩ rooms n = .ok x → left x.user ≠ [] →
        after cb ⟨enc, s, []⟩ rooms (n + 1) = .ok y → left y.user = [] →
        EndSeen cb ⟨enc, s, []⟩ rooms (n + 1) y := by
  intro h
  obtain ⟨x, -, -, -, hx, -⟩ :=
    tracked_always Network.recv_fragments (opening_tracked farewell [3]) (fun _ => sixteen) 1
  obtain ⟨y, -, -, -, hy, -⟩ :=
    tracked_always Network.recv_fragments (opening_tracked farewell [3]) (fun _ => sixteen) 2
  have hone : (match after Network.recv (opening farewell [3]) (fun _ => sixteen) 1 with
      | .ok x => decide (x.user.rest ≠ [])
      | .error _ => false) = true := by decide +kernel
  have htwo : (match after Network.recv (opening farewell [3]) (fun _ => sixteen) 2 with
      | .ok x => decide (x.user.rest = [] ∧ x.enc.bytes_till_eof = 2)
      | .error _ => false) = true := by decide +kernel
  rw [hx] at hone
  rw [hy] at htwo
  obtain ⟨hrest, heof⟩ := of_decide_eq_true htwo
  have hseen := h Network.recv Network.rest Network.handed plenty (chunked_encoding plenty) farewell
    { rest := farewell.text [], sizes := [3] } (fun _ => sixteen) 1 x y Network.recv_fragments
      (fresh_chunked rfl)
    (fun _ _ _ => rfl) rfl rfl hx (of_decide_eq_true hone) hy hrest
  have := hseen.1
  omega

/-- The same message in one fragment. -/
theorem reads_end_farewell :
    ∃ n x y, after Network.recv (opening farewell []) (fun _ => sixteen) n = .ok x ∧
      x.user.rest ≠ [] ∧
      after Network.recv (opening farewell []) (fun _ => sixteen) (n + 1) = .ok y ∧
      y.user.rest = [] ∧
      (EndSeen Network.recv (opening farewell []) (fun _ => sixteen) (n + 1) y ↔
        JustInTime farewell.lines y.user.handed) :=
  reads_end_iff Network.recv_fragments (fresh_chunked rfl) (fun _ _ _ => rfl) farewell rfl rfl _

end Encoding
