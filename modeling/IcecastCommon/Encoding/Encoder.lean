import IcecastCommon.Encoding.Write
import IcecastCommon.Lib.Run

/-!
# Runs of writes

A writer queues metadata and writes data, again and again. Its backend takes some of the bytes
that it is offered, or none.
-/

namespace Encoding

open Lib

variable {σ : Type}

/-- The backend takes some bytes from the front of what it is offered, or fails. -/
structure Accepts (cb : WriteCallback σ) (accepted : σ → Bytes) : Prop where
  step : ∀ s data,
    ((cb s data).1 ≤ 0 ∧ accepted (cb s data).2 = accepted s) ∨
    ∃ n : Nat, 0 < n ∧ n ≤ data.length ∧ (cb s data).1 = n ∧
      accepted (cb s data).2 = accepted s ++ data.take n

/-- An item from `httpp_encoding_meta_new`. -/
structure Item where
  key : CString
  value : CString
  item : httpp_meta_t
  made : ∃ grants grants', httpp_encoding_meta_new grants (some key) (some value) =
    (some item, grants')

def Item.pair (i : Item) : Pair := (i.key.bytes, i.value.bytes)

inductive Call where
  | append_meta (items : List Item)
  | write (block : Bytes) (len : Nat) (pos : 0 < len) (within : len ≤ block.length)

/-- The encoding and its backend, with the metadata that waits for a frame and the frames so far. -/
structure Encoder (σ : Type) where
  enc : httpp_encoding_t
  user : σ
  queued : List Pair
  frames : Bytes

/-- The chunk that announces `ps` and holds the first `n` bytes of the buffer. -/
def data_frame (ps : List Pair) (block : Bytes) (n : Nat) : Bytes :=
  hex n ++ extensions ps ++ crlf ++ block.take n ++ crlf

/-- A write that returns a positive number adds a frame. -/
def Encoder.call (cb : WriteCallback σ) (x : Encoder σ) : Call → C (Encoder σ)
  | .append_meta items => return { x with
      enc := httpp_encoding_append_meta x.enc (items.map Item.item),
      queued := x.queued ++ items.map Item.pair }
  | .write block len _ _ => do
    let (ret, enc, user) ← httpp_encoding_write x.enc (some block) len (some cb) x.user
    if ret > 0 then return ⟨enc, user, [], x.frames ++ data_frame x.queued block ret.toNat⟩
    else return ⟨enc, user, x.queued, x.frames⟩

/-- The bytes of `buf_write_encoded` that are still to be sent. -/
def unsent (enc : httpp_encoding_t) : Bytes :=
  (enc.buf_write_encoded.getD []).drop enc.buf_write_encoded_offset

/-! ## One call -/

variable {cb : WriteCallback σ} {accepted : σ → Bytes}

theorem Accepts.takes (h : Accepts cb accepted) : Takes cb := by
  intro s data
  rcases h.step s data with ⟨hnone, -⟩ | ⟨n, -, hn, hret, -⟩
  · omega
  · omega

theorem Accepts.flushed (h : Accepts cb accepted) (s : σ) (u : Bytes) :
    accepted (Encoding.flushed cb s u).2 ++ (Encoding.flushed cb s u).1 = accepted s ++ u := by
  unfold Encoding.flushed
  split_ifs with hu
  · rw [hu]
  · rcases h.step s u with ⟨hnone, hsame⟩ | ⟨n, -, -, hret, htook⟩
    · have hzero : (cb s u).1.toNat = 0 := by omega
      rw [hzero, hsame, List.drop_zero]
    · have hn : (cb s u).1.toNat = n := by omega
      rw [hn, htook, List.append_assoc, List.take_append_drop]

theorem Item.eq_stored (i : Item) : i.item = stored i.pair := by
  obtain ⟨grants, grants', hmade⟩ := i.made
  unfold httpp_encoding_meta_new at hmade
  simp only at hmade
  split at hmade
  · exact absurd hmade (by simp)
  · split at hmade
    · exact absurd hmade (by simp)
    · split at hmade
      · exact absurd hmade (by simp)
      · simp only [Prod.mk.injEq, Option.some.injEq] at hmade
        exact hmade.1.symm

theorem items_stand (items : List Item) :
    List.Forall₂ Stands (items.map Item.item) (items.map Item.pair) := by
  have hitems : items.map Item.item = (items.map Item.pair).map stored := by
    rw [List.map_map]
    exact List.map_congr_left fun i _ => i.eq_stored
  rw [hitems]
  apply stored_stand
  intro p hp
  obtain ⟨i, -, rfl⟩ := List.mem_map.mp hp
  exact i.key.nulFree

/-- What was accepted and what is still to be sent are the frames, and the metadata waits. -/
structure Encoder.Delivers (accepted : σ → Bytes) (start : Bytes) (x : Encoder σ) : Prop where
  process : x.enc.process = .chunked
  generous : Generous x.enc.grants
  queue : List.Forall₂ Stands x.enc.meta_write x.queued
  nulFree : ∀ p ∈ x.queued, 0 ∉ p.1 ∧ 0 ∉ p.2
  sent : ∃ u, Unsent x.enc u ∧ accepted x.user ++ u = start ++ x.frames

theorem line_of_generous {enc : httpp_encoding_t} {ps : List Pair} (hgen : Generous enc.grants)
    (hnul : ∀ p ∈ ps, 0 ∉ p.1 ∧ 0 ∉ p.2) : line_of enc ps = extensions ps := by
  rw [line_of, if_pos (hgen _ _ _), written_nulFree hnul]

namespace Encoder.Delivers

variable {start : Bytes} {x : Encoder σ}

theorem write (hacc : Accepts cb accepted) (h : x.Delivers accepted start)
    {block : Bytes} {len : Nat} (hpos : 0 < len) (hwithin : len ≤ block.length)
    (hroom : extensions_room x.queued < 2 ^ 62) :
    ∃ ret enc user, httpp_encoding_write x.enc (some block) len (some cb) x.user =
      .ok (ret, enc, user) ∧
      ((ret = 0 ∧ enc.meta_write = x.enc.meta_write ∧
          Delivers accepted start ⟨enc, user, x.queued, x.frames⟩) ∨
        ∃ n : Nat, 0 < n ∧ ret = n ∧
          Delivers accepted start ⟨enc, user, [], x.frames ++ data_frame x.queued block n⟩) := by
  obtain ⟨u, hu, hsent⟩ := h.sent
  have hline := line_of_generous h.generous h.nulFree
  have hflush := hacc.flushed x.user u
  by_cases hfree : (flushed cb x.user u).1 = []
  · have hframe : frame (line_of x.enc x.queued) (some block) (chunk_size (some block) len) =
        data_frame x.queued block (chunk_size (some block) len) := by
      rw [hline]
      rfl
    have hbuf : ∀ b, some block = some b → len ≤ b.length := by
      intro b hb
      cases hb
      exact hwithin
    have hsize : 0 < chunk_size (some block) len ∧ chunk_size (some block) len ≤ 1048576 := by
      simp only [chunk_size, reduceCtorEq, if_false]
      omega
    have hsmall :
        (frame (line_of x.enc x.queued) (some block) (chunk_size (some block) len)).length <
        2 ^ 63 := by
      have hdigits : (hex (chunk_size (some block) len)).length ≤ 6 :=
        hex_length_le (by decide) (by omega)
      have htext := extensions_length_lt x.queued
      rw [hframe]
      simp only [data_frame, List.length_append, List.length_take, crlf, List.length_cons,
        List.length_nil]
      omega
    obtain ⟨enc, hrun, hunsent, hproc, hmeta, hlater, -⟩ :=
      write_queues hacc.takes h.process hu x.user (extensions_line h.queue) hbuf hsmall hfree
        (h.generous _ _ _)
    rw [hframe] at hrun hunsent
    refine ⟨_, enc, _, hrun,
      .inr ⟨_, hsize.1, rfl, ⟨hproc, h.generous.later hlater, ?_, by simp, _, hunsent, ?_⟩⟩⟩
    · rw [hmeta, meta_after, if_pos (h.generous _ _ _)]
      exact .nil
    · rw [hacc.flushed, ← List.append_assoc start, ← hsent, ← hflush, hfree, List.append_nil]
  · obtain ⟨enc, hrun, hunsent, hsame⟩ :=
      write_refuses hacc.takes h.process hu x.user (some block) len hfree
    refine ⟨0, enc, _, hrun, .inl ⟨rfl, by rw [hsame], ?_⟩⟩
    refine ⟨by rw [hsame]; exact h.process, by rw [hsame]; exact h.generous,
      by rw [hsame]; exact h.queue, h.nulFree, _, hunsent, ?_⟩
    rw [hacc.flushed, hflush, hsent]

theorem append_meta (h : x.Delivers accepted start) (items : List Item) :
    Delivers accepted start
      { x with enc := httpp_encoding_append_meta x.enc (items.map Item.item), queued := x.queued ++
        items.map Item.pair } := by
  obtain ⟨u, hu, hsent⟩ := h.sent
  refine ⟨h.process, h.generous, List.rel_append h.queue (items_stand items), ?_, u,
    ⟨hu.holds, hu.null, hu.small⟩, hsent⟩
  intro p hp
  rcases List.mem_append.mp hp with hold | hnew
  · exact h.nulFree p hold
  · obtain ⟨i, -, rfl⟩ := List.mem_map.mp hnew
    exact ⟨i.key.nulFree, i.value.nulFree⟩

theorem call (hacc : Accepts cb accepted) (h : x.Delivers accepted start) (a : Call)
    (hroom : extensions_room x.queued < 2 ^ 62) :
    ∃ x', x.call cb a = .ok x' ∧ x'.Delivers accepted start := by
  cases a with
  | append_meta items => exact ⟨_, rfl, h.append_meta items⟩
  | write block len hpos hwithin =>
    obtain ⟨ret, enc, user, hrun, ⟨hret, -, hnext⟩ | ⟨n, hn, hret, hnext⟩⟩ :=
      h.write hacc hpos hwithin hroom
    · refine ⟨_, ?_, hnext⟩
      show (httpp_encoding_write x.enc (some block) len (some cb) x.user >>= _) = _
      rw [hrun, hret]
      rfl
    · refine ⟨_, ?_, hnext⟩
      show (httpp_encoding_write x.enc (some block) len (some cb) x.user >>= _) = _
      simp only [hrun, ok_bind, hret, if_pos (show (n : Int) > 0 by omega)]
      rfl

theorem unsent_eq (h : x.Delivers accepted start) :
    accepted x.user ++ unsent x.enc = start ++ x.frames := by
  obtain ⟨u, hu, hsent⟩ := h.sent
  rw [unsent, hu.holds.left, hsent]

end Encoder.Delivers

/-! ## Runs -/

theorem Fresh.delivers {grants : Grants} {enc : httpp_encoding_t} (hnew : Fresh grants enc)
    (hgen : Generous grants) (s : σ) : Encoder.Delivers accepted (accepted s) ⟨enc, s, [], []⟩ := by
  rw [hnew.eq]
  exact ⟨rfl, hgen.later (malloc_later _ .encoding 152), .nil, by simp, [],
    ⟨Holds.null, fun _ => rfl, by decide⟩, rfl⟩

/-- **No loss.** At every point of a run the backend has accepted, and the encoding still holds, the
frames of the writes that took some bytes, and nothing else. A write that takes none leaves the
metadata for the next frame. The buffer for the metadata is never larger than an object can be. -/
theorem writes_deliver (hacc : Accepts cb accepted) {grants : Grants} {enc : httpp_encoding_t}
    (hnew : Fresh grants enc) (hgen : Generous grants) (s : σ) (calls : List Call)
    (hroom : ∀ pre x, pre <+: calls → pre.foldlM (Encoder.call cb) ⟨enc, s, [], []⟩ = .ok x →
      extensions_room x.queued < 2 ^ 62) :
    ∃ x, calls.foldlM (Encoder.call cb) ⟨enc, s, [], []⟩ = .ok x ∧
      accepted x.user ++ unsent x.enc = accepted s ++ x.frames ∧
      List.Forall₂ Stands x.enc.meta_write x.queued ∧
      ∀ block len enc' user', 0 < len → len ≤ block.length →
        httpp_encoding_write x.enc (some block) len (some cb) x.user = .ok (0, enc', user') →
        enc'.meta_write = x.enc.meta_write ∧
        accepted user' ++ unsent enc' = accepted s ++ x.frames := by
  obtain ⟨x, hrun, h⟩ : ∃ x, calls.foldlM (Encoder.call cb) ⟨enc, s, [], []⟩ = .ok x ∧
      x.Delivers accepted (accepted s) := by
    refine run_along (hnew.delivers hgen s) fun pre a post x hsplit hpre h => ?_
    exact h.call hacc a (hroom pre x (hsplit ▸ List.prefix_append _ _) hpre)
  refine ⟨x, hrun, h.unsent_eq, h.queue, ?_⟩
  intro block len enc' user' hpos hwithin hzero
  obtain ⟨ret, enc1, user1, hwrite, hcase⟩ :=
    h.write hacc hpos hwithin (hroom calls x (List.prefix_rfl) hrun)
  rw [hzero] at hwrite
  cases hwrite
  rcases hcase with ⟨-, hmeta, hnext⟩ | ⟨n, hn, hret, -⟩
  · exact ⟨hmeta, hnext.unsent_eq⟩
  · omega

/-! ## A pipe -/

/-- The bytes in a pipe, and the room in it at each of the next calls. -/
structure Pipe where
  taken : Bytes
  rooms : List Nat

/-- Without room the call fails. -/
def Pipe.send : WriteCallback Pipe := fun s data =>
  let n := min (s.rooms.headD 0) data.length
  if n = 0 then (-1, { s with rooms := s.rooms.tail })
  else (n, { taken := s.taken ++ data.take n, rooms := s.rooms.tail })

theorem Pipe.send_accepts : Accepts Pipe.send Pipe.taken := by
  constructor
  intro s data
  unfold send
  simp only
  split_ifs with hn
  · exact .inl ⟨by simp, rfl⟩
  · exact .inr ⟨_, by omega, Nat.min_le_right _ _, rfl, rfl⟩

def title : Item where
  key := ⟨ascii "title", by decide⟩
  value := ⟨ascii "\"A\"", by decide⟩
  item := stored (ascii "title", ascii "\"A\"")
  made := ⟨fun _ _ _ => true, _, rfl⟩

/-- A title, and two writes of which the second is refused. -/
def title_calls : List Call :=
  [.append_meta [title], .write (ascii "ab") 2 (by decide) (by decide), .append_meta [title],
    .write (ascii "c") 1 (by decide) (by decide)]

/-- A pipe that takes the frame in pieces. -/
theorem writes_deliver_title :
    let x0 : Encoder Pipe :=
  ⟨chunked_encoding fun _ _ _ => true, { taken := [], rooms := [3, 0, 5] }, [], []⟩
    ∃ x, title_calls.foldlM (Encoder.call Pipe.send) x0 = .ok x ∧
      x.user.taken ++ unsent x.enc = [] ++ x.frames ∧
      List.Forall₂ Stands x.enc.meta_write x.queued ∧
      ∀ block len enc' user', 0 < len → len ≤ block.length →
        httpp_encoding_write x.enc (some block) len (some Pipe.send) x.user = .ok (0, enc', user') →
        enc'.meta_write = x.enc.meta_write ∧ user'.taken ++ unsent enc' = [] ++ x.frames := by
  refine writes_deliver Pipe.send_accepts (fresh_chunked rfl) (fun _ _ _ => rfl) _ title_calls ?_
  intro pre x hpre hrun
  have hmem : pre ∈ title_calls.inits := (List.mem_inits _ _).mpr hpre
  change pre ∈ [[], title_calls.take 1, title_calls.take 2, title_calls.take 3, title_calls] at hmem
  simp only [List.mem_cons, List.not_mem_nil, or_false] at hmem
  rcases hmem with rfl | rfl | rfl | rfl | rfl
  · cases hrun
    decide
  · cases hrun
    decide +kernel
  · cases hrun
    decide +kernel
  · cases hrun
    decide +kernel
  · cases hrun
    decide +kernel

end Encoding
