import IcecastCommon.Encoding.Zero

/-!
# Queued metadata

What becomes of the items that `httpp_encoding_append_meta` queued, when any call of `malloc` may
fail. The metadata is consumed before the memory for the frame is asked for.
-/

namespace Encoding

open Lib

variable {σ : Type} {cb : WriteCallback σ} {accepted : σ → Bytes}

/-! ## Calls -/

/-- An item with a key, whose texts have no NUL. -/
structure Entry where
  item : httpp_meta_t
  pair : Pair
  stands : Stands item pair
  nulFree : 0 ∉ pair.1 ∧ 0 ∉ pair.2

/-- What `httpp_encoding_meta_new` makes of two strings. -/
def Item.entry (i : Item) : Entry where
  item := i.item
  pair := i.pair
  stands := i.eq_stored ▸ stored_stands i.key.nulFree
  nulFree := ⟨i.key.nulFree, i.value.nulFree⟩

/-- The encoding and its backend. `appended` are all items that were queued, `frames` is what each
write added to the stream, and `failed` is the metadata before and after each write that returned
-1. -/
structure Queue (σ : Type) where
  enc : httpp_encoding_t
  user : σ
  appended : List Pair
  frames : List Bytes
  failed : List (List httpp_meta_t × List httpp_meta_t)

namespace Queue

inductive Op where
  | append_meta (entries : List Entry)
  | write (buf : Option Bytes) (len : Nat) (within : ∀ block, buf = some block → len ≤ block.length)

def call (cb : WriteCallback σ) (accepted : σ → Bytes) (x : Queue σ) : Op → C (Queue σ)
  | .append_meta entries => return { x with
      enc := httpp_encoding_append_meta x.enc (entries.map Entry.item),
      appended := x.appended ++ entries.map Entry.pair }
  | .write buf len _ => do
    let (ret, enc, user) ← httpp_encoding_write x.enc buf len (some cb) x.user
    return { x with
      enc, user
      frames :=
        x.frames ++ [(stream accepted (enc, user)).drop (stream accepted (x.enc, x.user)).length]
      failed := if ret = -1 then x.failed ++ [(x.enc.meta_write, enc.meta_write)] else x.failed }

/-! ## What survives -/

/-- The bytes that a write added to the stream are a frame with these items, or none. -/
def Announces (piece : Bytes) (ps : List Pair) : Prop :=
  piece = [] ∧ ps = [] ∨ ∃ buf n, piece = frame (extensions ps) buf n

/-- Every item is still queued or part of a frame in the stream. -/
def Kept (accepted : σ → Bytes) (start : Bytes) (x : Queue σ) : Prop :=
  stream accepted (x.enc, x.user) = start ++ x.frames.flatten ∧
  ∃ framed queued, x.appended = framed.flatten ++ queued ∧ List.Forall₂ Announces x.frames framed ∧
    List.Forall₂ Stands x.enc.meta_write queued

/-- No item is lost, and no write that failed has changed the metadata. -/
def Survives (accepted : σ → Bytes) (start : Bytes) (x : Queue σ) : Prop :=
  x.Kept accepted start ∧ ∀ e ∈ x.failed, e.1 = e.2

/-- A write that gets to the encoder has memory for the text of the queued items, and then none for
the frame. -/
def Loses (cb : WriteCallback σ) (x : Queue σ) : Op → Prop
  | .append_meta _ => False
  | .write buf len _ => (flushed cb x.user (unsent x.enc)).1 = [] ∧
      ∃ ps, ps ≠ [] ∧ List.Forall₂ Stands x.enc.meta_write ps ∧
        x.enc.grants .extensions 0 (extensions_room ps) = true ∧
        x.enc.grants .write_encoded 0 (frame (written ps) buf (chunk_size buf len)).length = false

/-! ## One call -/

variable {start : Bytes} {x : Queue σ}

section Write

variable {ps : List Pair} {buf : Option Bytes} {len : Nat}

theorem write_keeps (hacc : Accepts cb accepted) (hready : Ready x.enc)
    (hnul : ∀ p ∈ ps, 0 ∉ p.1 ∧ 0 ∉ p.2) (hqueue : List.Forall₂ Stands x.enc.meta_write ps)
    (hbuf : ∀ block, buf = some block → len ≤ block.length)
    (hkept : ¬ Loses cb x (.write buf len hbuf)) :
    ∃ ret enc user piece framed queued,
      httpp_encoding_write x.enc buf len (some cb) x.user = .ok (ret, enc, user) ∧
      Ready enc ∧ stream accepted (enc, user) = stream accepted (x.enc, x.user) ++ piece ∧
      Announces piece framed ∧
      ps = framed ++ queued ∧ List.Forall₂ Stands enc.meta_write queued ∧
      (ret = -1 → enc.meta_write = x.enc.meta_write) := by
  have hextends := extensions_line hqueue
  have hnone : Announces [] [] := .inl ⟨rfl, rfl⟩
  by_cases hfree : (flushed cb x.user (unsent x.enc)).1 = []
  · by_cases hgrant : x.enc.grants .write_encoded 0
      (frame (line_of x.enc ps) buf (chunk_size buf len)).length = true
    · obtain ⟨enc, user, hrun, hready', hmeta, hstream⟩ :=
        write_framed (x := (x.enc, x.user)) hacc hready hextends hbuf hfree hgrant
      refine ⟨_, enc, user, _, if x.enc.grants .extensions 0 (extensions_room ps) = true then ps
        else [],
        if x.enc.grants .extensions 0 (extensions_room ps) = true then
          []
        else
          ps, hrun, hready', hstream, ?_, ?_, ?_, ?_⟩
      · refine .inr ⟨buf, chunk_size buf len, ?_⟩
        rw [line_of]
        split_ifs
        · rw [written_nulFree hnul]
        · rfl
      · split_ifs
        · rw [List.append_nil]
        · rw [List.nil_append]
      · rw [hmeta, meta_after]
        split_ifs
        · exact .nil
        · exact hqueue
      · intro hret
        omega
    · obtain ⟨enc, user, hrun, hready', hmeta, hstream⟩ :=
        write_unframed (x := (x.enc, x.user)) hacc hready hextends hbuf hfree hgrant
      have hsame : meta_after x.enc ps = x.enc.meta_write := by
        unfold meta_after
        split_ifs with hext
        · rw [line_of, if_pos hext, Bool.not_eq_true] at hgrant
          by_contra hne
          refine hkept ⟨hfree, ps, ?_, hqueue, hext, hgrant⟩
          rintro rfl
          exact hne (List.forall₂_nil_right_iff.mp hqueue).symm
        · rfl
      rw [hsame] at hmeta
      refine ⟨-1, enc, user, [], [], ps, hrun, hready', ?_, hnone, rfl, ?_, fun _ => hmeta⟩
      · rw [hstream, List.append_nil]
      · rw [hmeta]
        exact hqueue
  · obtain ⟨enc, user, hrun, hready', hmeta, hstream⟩ :=
      write_waits (x := (x.enc, x.user)) hacc hready hfree buf len
    refine ⟨0, enc, user, [], [], ps, hrun, hready', ?_, hnone, rfl, ?_, fun _ => hmeta⟩
    · rw [hstream, List.append_nil]
    · rw [hmeta]
      exact hqueue

theorem loses_fails (hacc : Accepts cb accepted) (hready : Ready x.enc)
    {hbuf : ∀ block, buf = some block → len ≤ block.length}
    (hloses : Loses cb x (.write buf len hbuf)) :
    ∃ enc user, httpp_encoding_write x.enc buf len (some cb) x.user = .ok (-1, enc, user) ∧
      Ready enc ∧
      enc.meta_write = [] ∧ x.enc.meta_write ≠ [] := by
  obtain ⟨hfree, ps, hps, hqueue, hext, hrefused⟩ := hloses
  have hextends := extensions_line hqueue
  rw [line_of, if_pos hext, meta_after, if_pos hext] at hextends
  obtain ⟨enc, user, hrun, hready', hmeta, -⟩ :=
    write_unframed (x := (x.enc, x.user)) hacc hready hextends hbuf hfree (by rw [hrefused]; decide)
  refine ⟨enc, user, hrun, hready', hmeta, fun hempty => hps ?_⟩
  rwa [hempty, List.forall₂_nil_left_iff] at hqueue

end Write

/-- The next call can be made, and no item was lost so far. -/
structure Steady (accepted : σ → Bytes) (start : Bytes) (x : Queue σ) : Prop where
  ready : Ready x.enc
  nulFree : ∀ p ∈ x.appended, 0 ∉ p.1 ∧ 0 ∉ p.2
  survives : x.Survives accepted start

theorem Steady.append_meta (h : x.Steady accepted start) (entries : List Entry) :
    Steady accepted start { x with
      enc := httpp_encoding_append_meta x.enc (entries.map Entry.item)
      appended := x.appended ++ entries.map Entry.pair } := by
  obtain ⟨⟨hstream, framed, queued, happended, hframes, hqueue⟩, hfailed⟩ := h.survives
  refine ⟨h.ready.append_meta _, fun p hp => ?_,
    ⟨hstream, framed, queued ++ entries.map Entry.pair, ?_, hframes, ?_⟩,
    hfailed⟩
  · rcases List.mem_append.mp hp with hold | hnew
    · exact h.nulFree p hold
    · obtain ⟨entry, -, rfl⟩ := List.mem_map.mp hnew
      exact entry.nulFree
  · dsimp only
    rw [happended, List.append_assoc]
  · refine List.rel_append hqueue ?_
    rw [List.forall₂_map_left_iff, List.forall₂_map_right_iff]
    exact List.forall₂_same.mpr fun entry _ => entry.stands

theorem call_survives (hacc : Accepts cb accepted) (x : Queue σ) (op : Op)
    (h : x.Steady accepted start) (hkept : ¬ Loses cb x op) :
    ∃ y, x.call cb accepted op = .ok y ∧ y.Steady accepted start := by
  cases op with
  | append_meta entries => exact ⟨_, rfl, h.append_meta entries⟩
  | write buf len hbuf =>
    obtain ⟨⟨hstream, framed, queued, happended, hframes, hqueue⟩, hfailed⟩ := h.survives
    have hnul : ∀ p ∈ queued, 0 ∉ p.1 ∧ 0 ∉ p.2 := by
      intro p hp
      refine h.nulFree p ?_
      rw [happended]
      exact List.mem_append_right _ hp
    obtain ⟨ret, enc, user, piece, ps, rest, hrun, hready, hadds, hpiece, hsplit, hrest, hsame⟩ :=
      write_keeps hacc h.ready hnul hqueue hbuf hkept
    have hdrop :
        (stream accepted (enc, user)).drop (stream accepted (x.enc, x.user)).length = piece := by
      rw [hadds, List.drop_left]
    refine ⟨_, run_bind hrun rfl, hready, h.nulFree, ⟨?_, framed ++ [ps], rest, ?_, ?_, hrest⟩, ?_⟩
    · dsimp only
      rw [hdrop, hadds, hstream]
      simp
    · dsimp only
      rw [happended, hsplit]
      simp
    · dsimp only
      rw [hdrop]
      exact List.rel_append hframes (.cons hpiece .nil)
    · dsimp only
      split_ifs with hret
      · intro e he
        rcases List.mem_append.mp he with hold | hnew
        · exact hfailed e hold
        · obtain rfl := List.mem_singleton.mp hnew
          exact (hsame hret).symm
      · exact hfailed

theorem loses_lost (hacc : Accepts cb accepted) (x : Queue σ) (op : Op)
    (h : x.Steady accepted start) (hloses : Loses cb x op) :
    ∃ y, x.call cb accepted op = .ok y ∧ ¬ y.Survives accepted start := by
  cases op with
  | append_meta entries => exact hloses.elim
  | write buf len hbuf =>
    obtain ⟨enc, user, hrun, -, hmeta, hsome⟩ := loses_fails hacc h.ready hloses
    refine ⟨_, run_bind hrun rfl, fun hsurvives => hsome ?_⟩
    have hsame := hsurvives.2 (x.enc.meta_write, enc.meta_write) (by simp)
    rw [hmeta] at hsame
    exact hsame

/-! ## Runs -/

/-- **Metadata.** Every run goes on, every item is queued or in a frame, and no failed write changes
the metadata, if and only if no write has memory for the items and then none for the frame. -/
theorem queue_survives_iff (hacc : Accepts cb accepted) {grants : Grants} {enc : httpp_encoding_t}
    (hnew : Fresh grants enc) (hlimited : Limited grants) (s : σ) (ops : List Op) :
    (∀ pre post, ops = pre ++ post → ∃ x,
      pre.foldlM (call cb accepted) ⟨enc, s, [], [], []⟩ = .ok x ∧
        x.Survives accepted (accepted s)) ↔
      ∀ pre op post x, ops = pre ++ op :: post →
      pre.foldlM (call cb accepted) ⟨enc, s, [], [], []⟩ = .ok x →
        ¬ Loses cb x op := by
  have h0 : Steady accepted (accepted s) ⟨enc, s, [], [], []⟩ := by
    refine ⟨hnew.ready hlimited, by simp, ⟨?_, [], [], rfl, .nil, ?_⟩, by simp⟩
    · rw [hnew.eq]
      rfl
    · rw [hnew.eq]
      exact .nil
  exact run_total_iff (Steady accepted (accepted s)) (fun _ h => h.survives) (call_survives hacc)
    (fun x op h hloses => Succeeds.yields (loses_lost hacc x op h hloses)) h0 ops

/-- A title, some data, and the end. -/
def title_ops : List Op :=
  [.append_meta [title.entry], .write (some (ascii "ab")) 2 ab_within, .write none 0 null_within]

theorem queue_survives_iff_title :
    let x0 : Queue Pipe :=
  ⟨chunked_encoding addressable, { taken := [], rooms := [3, 0, 5] }, [], [], []⟩
    (∀ pre post, title_ops = pre ++ post → ∃ x, pre.foldlM (call Pipe.send Pipe.taken) x0 = .ok x ∧
        x.Survives Pipe.taken []) ↔
      ∀ pre op post x, title_ops = pre ++ op :: post →
        pre.foldlM (call Pipe.send Pipe.taken) x0 = .ok x →
        ¬ Loses Pipe.send x op :=
  queue_survives_iff Pipe.send_accepts (fresh_chunked (by decide)) addressable_limited _ title_ops

/-- An allocator that has no memory for frames. -/
def frameless : Grants := fun site _ size => site ≠ .write_encoded && size < 2 ^ 63

theorem frameless_limited : Limited frameless := by
  intro site n size hsize
  have hbig : decide (size < 2 ^ 63) = false := decide_eq_false (by omega)
  rw [frameless, hbig, Bool.and_false]

/-- The title is lost with the first write. -/
theorem metadata_lost :
    ¬ ∀ (cb : WriteCallback Pipe) (accepted : Pipe → Bytes) (grants : Grants)
      (enc : httpp_encoding_t) (s : Pipe) (ops : List Op), Accepts cb accepted → Fresh grants enc →
      Limited grants →
        ∀ pre post, ops = pre ++ post → ∃ x,
        pre.foldlM (call cb accepted) ⟨enc, s, [], [], []⟩ = .ok x ∧
          x.Survives accepted (accepted s) := by
  intro h
  obtain ⟨x, hrun, hfailed⟩ : ∃ x, (title_ops.take 2).foldlM (call Pipe.send Pipe.taken)
      ⟨chunked_encoding frameless, { taken := [], rooms := [] }, [], [], []⟩ = .ok x ∧
      x.failed = [([title.item], [])] := ⟨_, rfl, rfl⟩
  obtain ⟨y, hrun', hsurvives⟩ :=
    h Pipe.send Pipe.taken frameless _ { taken := [], rooms := [] } title_ops
      Pipe.send_accepts (fresh_chunked (by decide)) frameless_limited (title_ops.take 2) _
      (List.take_append_drop 2 _).symm
  cases hrun.symm.trans hrun'
  have hsame := hsurvives.2 ([title.item], []) (by rw [hfailed]; exact List.mem_singleton_self _)
  exact absurd hsame (by decide)

end Queue

end Encoding
