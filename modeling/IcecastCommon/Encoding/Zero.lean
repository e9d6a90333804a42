import IcecastCommon.Encoding.Encoder

/-!
# Chunks of size zero

The header of a chunk is written from the length of the buffer, and a chunk of size zero ends the
stream. A buffer without any bytes ends it like NULL does.
-/

namespace Encoding

open Lib

variable {σ : Type}

/-! ## Any metadata -/

/-- A text that is empty or starts with an extension. -/
def Line (t : Bytes) : Prop := t = [] ∨ t.head? = some (ch ';')

theorem line_flatten {ts : List Bytes} (h : ∀ t ∈ ts, Line t) : Line ts.flatten := by
  induction ts with
  | nil => exact .inl rfl
  | cons t ts ih =>
    rw [List.flatten_cons]
    rcases h t (by simp) with rfl | hhead
    · exact ih fun u hu => h u (List.mem_cons_of_mem _ hu)
    · right
      rw [List.head?_append, hhead]
      rfl

theorem Line.to_nul {t : Bytes} (h : Line t) : Line (t.takeWhile (· != 0)) := by
  rcases h with rfl | hhead
  · exact .inl rfl
  · obtain ⟨rest, rfl⟩ := List.head?_eq_some_iff.mp hhead
    right
    rw [List.takeWhile_cons_of_pos (by decide)]
    rfl

theorem extension_text_line (cur : httpp_meta_t) : Yields (extension_text cur) Line := by
  unfold extension_text
  refine yields_ite (fun _ => yields_ok (.inl rfl)) fun _ => ?_
  refine yields_bind fun block _ => yields_bind fun key _ => ?_
  refine yields_ite (fun _ => yields_ok (.inr rfl)) fun _ => ?_
  exact yields_bind fun value _ => yields_bind fun text _ => yields_ok (.inr rfl)

theorem extends_of_ok {self : httpp_encoding_t} :
    Yields (enc_chunked_write_extensions self) fun _ => ∃ line after, Extends self line after ∧
      Line line := by
  intro r hrun
  have hkept := hrun
  unfold enc_chunked_write_extensions at hrun
  rcases ite_eq_iff.mp hrun with ⟨-, hrun⟩ | ⟨-, hrun⟩
  · cases hrun
    exact ⟨[], self.meta_write, ⟨none, self.grants, hkept, Later.refl _, rfl, .inl ⟨rfl, rfl⟩⟩,
      .inl rfl⟩
  obtain ⟨rooms, -, hrun⟩ := bind_eq_ok.mp hrun
  have hlater := malloc_later self.grants .extensions (1 + rooms.sum)
  have hsite :=
    malloc_other self.grants (show Site.write_encoded ≠ .extensions by decide) (1 + rooms.sum)
  rcases ite_eq_iff.mp hrun with ⟨-, hrun⟩ | ⟨-, hrun⟩
  · cases hrun
    exact ⟨[], self.meta_write, ⟨none, _, hkept, hlater, hsite, .inl ⟨rfl, rfl⟩⟩, .inl rfl⟩
  obtain ⟨texts, htexts, hrun⟩ := bind_eq_ok.mp hrun
  have hline := line_flatten (yields_mapM extension_text_line _ _ htexts)
  rcases ite_eq_iff.mp hrun with ⟨-, hrun⟩ | ⟨-, hrun⟩
  · exact absurd hrun (by simp [bind, Except.bind])
  · cases hrun
    exact ⟨_, [], ⟨_, _, hkept, hlater, hsite, .inr ⟨_, rfl, cstring_cut texts.flatten []⟩⟩,
      hline.to_nul⟩

/-! ## One write -/

variable {cb : WriteCallback σ} {accepted : σ → Bytes}

theorem SameButSent.symm {self self' : httpp_encoding_t} (h : SameButSent self self') :
    SameButSent self' self := by
  unfold SameButSent at h ⊢
  rw [h]

theorem write_extends (htakes : Takes cb) {self : httpp_encoding_t} {u : Bytes}
    (hproc : self.process = .chunked) (h : Unsent self u) {s : σ} (hfree : (flushed cb s u).1 = [])
    (buf : Option Bytes) (len : Nat) :
    Yields (httpp_encoding_write self buf len (some cb) s) fun _ =>
      ∃ line after, Extends self line after := by
  obtain ⟨self1, hflush, hunsent, hsame⟩ := flush_spec htakes h s
  rw [hfree] at hunsent
  have hproc1 : self1.process = .chunked := by
    rw [hsame]
    exact hproc
  intro r hrun
  unfold httpp_encoding_write at hrun
  dsimp only at hrun
  rw [hflush, ok_bind] at hrun
  obtain ⟨r1, hr1, -⟩ := bind_eq_ok.mp hrun
  unfold process_write at hr1
  rw [hproc1] at hr1
  obtain ⟨r2, hr2, -⟩ := bind_eq_ok.mp hr1
  unfold enc_chunked_write at hr2
  rcases ite_eq_iff.mp hr2 with ⟨hpending, -⟩ | ⟨-, hr2⟩
  · exact absurd hpending hunsent.idle
  · obtain ⟨r3, hr3, -⟩ := bind_eq_ok.mp hr2
    obtain ⟨line, after, hextends, -⟩ := extends_of_ok r3 hr3
    exact ⟨line, after, hsame.symm.extends hextends⟩

/-- There is no memory for 2^63 bytes. -/
def Limited (grants : Grants) : Prop := ∀ site n size, 2 ^ 63 ≤ size → grants site n size = false

theorem Limited.later {g g' : Grants} (h : Limited g) (hl : Later g g') : Limited g' := by
  obtain ⟨k, hk⟩ := hl
  intro site n size hsize
  rw [hk]
  exact h site _ size hsize

theorem Limited.lt {grants : Grants} (h : Limited grants) {site : Site} {n size : Nat}
    (hgrant : grants site n size = true) : size < 2 ^ 63 := by
  by_contra hbig
  rw [h site n size (by omega)] at hgrant
  exact absurd hgrant (by decide)

/-- Nothing is pending after the first flush, and there is memory for the frame behind `line`. -/
def Frames (cb : WriteCallback σ) (x : httpp_encoding_t × σ) (buf : Option Bytes) (len : Nat)
    (line : Bytes) : Prop :=
  (flushed cb x.2 (unsent x.1)).1 = [] ∧
  (∃ after, Extends x.1 line after) ∧
  x.1.grants .write_encoded 0 (frame line buf (chunk_size buf len)).length = true

theorem Frames.line {x : httpp_encoding_t × σ} {buf : Option Bytes} {len : Nat} {line : Bytes}
    (h : Frames cb x buf len line) : Line line := by
  obtain ⟨-, ⟨after, block, grants, hrun, -, -, hline⟩, -⟩ := h
  obtain ⟨line', after', ⟨block', grants', hrun', -, -, hline'⟩, hLine⟩ := extends_of_ok _ hrun
  cases hrun.symm.trans hrun'
  rcases hline with ⟨-, rfl⟩ | ⟨b, rfl, hb⟩
  · exact .inl rfl
  · obtain ⟨b', hb', htext⟩ := hline'.resolve_left fun hnone => absurd hnone.1 (by simp)
    cases hb'
    obtain rfl := Except.ok.inj (hb.symm.trans htext)
    exact hLine

/-- The encoding is ready for a write. -/
structure Ready (enc : httpp_encoding_t) : Prop where
  process : enc.process = .chunked
  limited : Limited enc.grants
  sent : ∃ u, Unsent enc u

theorem Ready.unsent {enc : httpp_encoding_t} (h : Ready enc) : Unsent enc (unsent enc) := by
  obtain ⟨u, hu⟩ := h.sent
  rw [Encoding.unsent, hu.holds.left]
  exact hu

/-- The bytes that reached the backend, and those that wait for it. -/
def stream (accepted : σ → Bytes) (x : httpp_encoding_t × σ) : Bytes := accepted x.2 ++ unsent x.1

theorem Unsent.stream {enc : httpp_encoding_t} {u : Bytes} (h : Unsent enc u) (s : σ) :
    stream accepted (enc, s) = accepted s ++ u := by
  rw [Encoding.stream, Encoding.unsent, h.holds.left]

/-! ### What a write does to the stream and to the metadata -/

section Cases

variable {x : httpp_encoding_t × σ} {buf : Option Bytes} {len : Nat} {line : Bytes}
  {after : List httpp_meta_t}

theorem write_waits (hacc : Accepts cb accepted) (h : Ready x.1)
    (hbusy : (flushed cb x.2 (unsent x.1)).1 ≠ []) (buf : Option Bytes) (len : Nat) :
    ∃ enc user, httpp_encoding_write x.1 buf len (some cb) x.2 = .ok (0, enc, user) ∧ Ready enc ∧
      enc.meta_write = x.1.meta_write ∧ stream accepted (enc, user) = stream accepted x := by
  obtain ⟨enc, hrun, hunsent, hsame⟩ :=
    write_refuses hacc.takes h.process h.unsent x.2 buf len hbusy
  refine ⟨enc, _, hrun, ⟨?_, ?_, _, hunsent⟩, by rw [hsame], ?_⟩
  · rw [hsame]
    exact h.process
  · rw [hsame]
    exact h.limited
  · rw [hunsent.stream, hacc.flushed, hacc.flushed]
    rfl

theorem write_framed (hacc : Accepts cb accepted) (h : Ready x.1)
    (hextends : Extends x.1 line after) (hbuf : ∀ block, buf = some block → len ≤ block.length)
    (hfree : (flushed cb x.2 (unsent x.1)).1 = [])
    (hgrant : x.1.grants .write_encoded 0 (frame line buf (chunk_size buf len)).length = true) :
    ∃ enc user, httpp_encoding_write x.1 buf len (some cb) x.2 =
      .ok (chunk_size buf len, enc, user) ∧ Ready enc ∧
      enc.meta_write = after ∧
      stream accepted (enc, user) = stream accepted x ++ frame line buf (chunk_size buf len) := by
  obtain ⟨enc, hrun, hunsent, hproc, hmeta, hlater, -⟩ :=
    write_queues hacc.takes h.process h.unsent x.2 hextends hbuf (h.limited.lt hgrant) hfree hgrant
  refine ⟨enc, _, hrun, ⟨hproc, h.limited.later hlater, _, hunsent⟩, hmeta, ?_⟩
  have hflush := hacc.flushed x.2 (unsent x.1)
  rw [hfree, List.append_nil] at hflush
  rw [hunsent.stream, hacc.flushed, hflush]
  rfl

theorem write_unframed (hacc : Accepts cb accepted) (h : Ready x.1)
    (hextends : Extends x.1 line after) (hbuf : ∀ block, buf = some block → len ≤ block.length)
    (hfree : (flushed cb x.2 (unsent x.1)).1 = [])
    (hrefused : ¬ x.1.grants .write_encoded 0 (frame line buf (chunk_size buf len)).length = true) :
    ∃ enc user, httpp_encoding_write x.1 buf len (some cb) x.2 = .ok (-1, enc, user) ∧ Ready enc ∧
      enc.meta_write = after ∧ stream accepted (enc, user) = stream accepted x := by
  obtain ⟨enc, hrun, hunsent, hproc, hmeta, hlater, -⟩ :=
    write_fails hacc.takes h.process h.unsent x.2 hextends hbuf hfree hrefused
  refine ⟨enc, _, hrun, ⟨hproc, h.limited.later hlater, _, hunsent⟩, hmeta, ?_⟩
  have hflush := hacc.flushed x.2 (unsent x.1)
  rw [hfree] at hflush
  rw [hunsent.stream, hflush]
  rfl

end Cases

theorem frames_adds (hacc : Accepts cb accepted) {x : httpp_encoding_t × σ} (h : Ready x.1)
    {buf : Option Bytes} {len : Nat} (hbuf : ∀ block, buf = some block → len ≤ block.length)
    {line : Bytes} (hframes : Frames cb x buf len line) :
    ∃ ret enc user, httpp_encoding_write x.1 buf len (some cb) x.2 = .ok (ret, enc, user) ∧
      Ready enc ∧
      stream accepted (enc, user) = stream accepted x ++ frame line buf (chunk_size buf len) := by
  obtain ⟨hfree, ⟨after, hextends⟩, hgrant⟩ := hframes
  obtain ⟨enc, user, hrun, hready, -, hstream⟩ := write_framed hacc h hextends hbuf hfree hgrant
  exact ⟨_, enc, user, hrun, hready, hstream⟩

/-- A write adds one frame to the stream, or nothing. -/
theorem write_adds (hacc : Accepts cb accepted) {x : httpp_encoding_t × σ} (h : Ready x.1)
    {buf : Option Bytes} {len : Nat} (hbuf : ∀ block, buf = some block → len ≤ block.length) :
    Yields (httpp_encoding_write x.1 buf len (some cb) x.2) fun r => Ready r.2.1 ∧
      ∃ piece, stream accepted r.2 = stream accepted x ++ piece ∧
        (piece = [] ∨ ∃ line, Frames cb x buf len line ∧
        piece = frame line buf (chunk_size buf len)) := by
  intro r hrun
  by_cases hfree : (flushed cb x.2 (unsent x.1)).1 = []
  · obtain ⟨line, after, hextends⟩ :=
      write_extends hacc.takes h.process h.unsent hfree buf len r hrun
    by_cases hgrant : x.1.grants .write_encoded 0 (frame line buf (chunk_size buf len)).length =
      true
    · have hframes : Frames cb x buf len line := ⟨hfree, ⟨after, hextends⟩, hgrant⟩
      obtain ⟨ret, enc, user, hwrite, hready, hstream⟩ := frames_adds hacc h hbuf hframes
      cases hwrite.symm.trans hrun
      exact ⟨hready, _, hstream, .inr ⟨line, hframes, rfl⟩⟩
    · obtain ⟨enc, user, hwrite, hready, -, hstream⟩ :=
        write_unframed hacc h hextends hbuf hfree hgrant
      cases hwrite.symm.trans hrun
      exact ⟨hready, [], by rw [hstream, List.append_nil], .inl rfl⟩
  · obtain ⟨enc, user, hwrite, hready, -, hstream⟩ := write_waits hacc h hfree buf len
    cases hwrite.symm.trans hrun
    exact ⟨hready, [], by rw [hstream, List.append_nil], .inl rfl⟩

/-! ## Headers -/

/-- The bytes start with the header of a chunk of size zero. -/
def ZeroHeader (t : Bytes) : Prop :=
  ∃ digits rest, t = digits ++ rest ∧ digits ≠ [] ∧ (∀ b ∈ digits, isxdigit b) ∧ hexNat digits = 0 ∧
    (rest.head? = some (ch ';') ∨ rest.head? = some CR)

theorem not_zero_header_nil : ¬ ZeroHeader [] := by
  rintro ⟨digits, rest, hnil, hne, -⟩
  exact hne (List.append_eq_nil_iff.mp hnil.symm).1

theorem takeWhile_digits {digits rest : Bytes} (hx : ∀ b ∈ digits, isxdigit b)
    (hrest : rest.head? = some (ch ';') ∨ rest.head? = some CR) :
    (digits ++ rest).takeWhile isxdigit = digits := by
  rw [List.takeWhile_append_of_pos hx]
  rcases hrest with hhead | hhead
  · obtain ⟨l, rfl⟩ := List.head?_eq_some_iff.mp hhead
    rw [List.takeWhile_cons_of_neg (by decide), List.append_nil]
  · obtain ⟨l, rfl⟩ := List.head?_eq_some_iff.mp hhead
    rw [List.takeWhile_cons_of_neg (by decide), List.append_nil]

theorem zero_header_iff {line : Bytes} (hline : Line line) (buf : Option Bytes) (n : Nat) :
    ZeroHeader (frame line buf n) ↔ n = 0 := by
  obtain ⟨rest, hframe, hrest⟩ : ∃ rest, frame line buf n = hex n ++ rest ∧
      (rest.head? = some (ch ';') ∨ rest.head? = some CR) := by
    refine ⟨line ++ crlf ++ (buf.getD []).take n ++ if buf = none then crlf ++ crlf
      else crlf, ?_, ?_⟩
    · unfold frame
      simp only [List.append_assoc]
    · rcases hline with rfl | hhead
      · exact .inr rfl
      · left
        simp [hhead]
  rw [hframe]
  constructor
  · rintro ⟨digits, rest', hsplit, -, hx, hzero, hrest'⟩
    have hdigits : hex n = digits := by
      rw [← takeWhile_digits (hex_digits n) hrest, hsplit, takeWhile_digits hx hrest']
    rw [← hexNat_hex n, hdigits, hzero]
  · rintro rfl
    exact ⟨hex 0, rest, rfl, hex_ne_nil 0, hex_digits 0, hexNat_hex 0, hrest⟩

/-! ## Runs -/

inductive Op where
  | append_meta (items : List httpp_meta_t)
  | write (buf : Option Bytes) (len : Nat) (within : ∀ block, buf = some block → len ≤ block.length)

/-- The encoding and its backend, with the buffer of each write and the bytes that the write added
to the stream. -/
structure Writer (σ : Type) where
  enc : httpp_encoding_t
  user : σ
  added : List (Option Bytes × Bytes)

def Writer.call (cb : WriteCallback σ) (accepted : σ → Bytes) (x : Writer σ) : Op → C (Writer σ)
  | .append_meta items => return { x with enc := httpp_encoding_append_meta x.enc items }
  | .write buf len _ => do
    let (_, enc, user) ← httpp_encoding_write x.enc buf len (some cb) x.user
    return ⟨enc, user,
      x.added ++
        [(buf, (stream accepted (enc, user)).drop (stream accepted (x.enc, x.user)).length)]⟩

/-- The stream is what the writes added, and only writes of NULL have added a last chunk. -/
def Continues (accepted : σ → Bytes) (start : Bytes) (x : Writer σ) : Prop :=
  stream accepted (x.enc, x.user) = start ++ (x.added.map Prod.snd).flatten ∧
  ∀ e ∈ x.added, ZeroHeader e.2 → e.1 = none

/-- A write of no data that is framed. -/
def EmptyFrame (cb : WriteCallback σ) (x : Writer σ) : Op → Prop
  | .append_meta _ => False
  | .write buf len _ => buf ≠ none ∧ len = 0 ∧ ∃ line, Frames cb (x.enc, x.user) buf len line

theorem Ready.append_meta {enc : httpp_encoding_t} (h : Ready enc) (items : List httpp_meta_t) :
    Ready (httpp_encoding_append_meta enc items) := by
  obtain ⟨u, hu⟩ := h.sent
  exact ⟨h.process, h.limited, u, hu.holds, hu.null, hu.small⟩

theorem Fresh.ready {grants : Grants} {enc : httpp_encoding_t} (hnew : Fresh grants enc)
    (hlimited : Limited grants) :
    Ready enc := by
  rw [hnew.eq]
  exact ⟨rfl, hlimited.later (malloc_later _ .encoding 152), [], Holds.null,
    fun _ => rfl, by decide⟩

theorem chunk_size_eq_zero {buf : Option Bytes} {len : Nat} :
    chunk_size buf len = 0 ↔ buf = none ∨ len = 0 := by
  unfold chunk_size
  split_ifs with hnull
  · simp [hnull]
  · simp only [hnull, false_or]
    omega

theorem added_continues {start piece : Bytes} {x : Writer σ} {enc : httpp_encoding_t} {user : σ}
    {buf : Option Bytes}
    (hadds : stream accepted (enc, user) = stream accepted (x.enc, x.user) ++ piece)
    (h : Continues accepted start x) (hzero : ZeroHeader piece → buf = none) :
    Continues accepted start ⟨enc, user,
      x.added ++
      [(buf, (stream accepted (enc, user)).drop (stream accepted (x.enc, x.user)).length)]⟩ := by
  obtain ⟨hstream, hnull⟩ := h
  have hpiece :
      (stream accepted (enc, user)).drop (stream accepted (x.enc, x.user)).length = piece := by
    rw [hadds, List.drop_left]
  rw [hpiece]
  refine ⟨?_, fun e he hlast => ?_⟩
  · rw [hadds, hstream]
    simp
  · rcases List.mem_append.mp he with hold | hnew
    · exact hnull e hold hlast
    · obtain rfl := List.mem_singleton.mp hnew
      exact hzero hlast

theorem call_continues (hacc : Accepts cb accepted) {start : Bytes} (x : Writer σ) (op : Op)
    (h : Ready x.enc ∧ Continues accepted start x) (hdata : ¬ EmptyFrame cb x op) :
    Yields (x.call cb accepted op) fun y => Ready y.enc ∧ Continues accepted start y := by
  obtain ⟨hready, hstream, hnull⟩ := h
  cases op with
  | append_meta items => exact yields_ok ⟨hready.append_meta items, hstream, hnull⟩
  | write buf len hbuf =>
    refine (write_adds hacc (x := (x.enc, x.user)) hready hbuf).bind ?_
    rintro ⟨ret, enc, user⟩ ⟨hready', piece, hadds, hpiece⟩
    dsimp only at hready' hadds
    refine yields_ok ⟨hready', added_continues hadds ⟨hstream, hnull⟩ fun hzero => ?_⟩
    rcases hpiece with rfl | ⟨line, hframes, rfl⟩
    · exact absurd hzero not_zero_header_nil
    · by_contra hbuf
      rcases chunk_size_eq_zero.mp ((zero_header_iff hframes.line buf _).mp hzero) with hnone | hlen
      · exact hbuf hnone
      · exact hdata ⟨hbuf, hlen, line, hframes⟩

theorem empty_ends (hacc : Accepts cb accepted) {start : Bytes} (x : Writer σ) (op : Op)
    (h : Ready x.enc ∧ Continues accepted start x) (hempty : EmptyFrame cb x op) :
    ∃ y, x.call cb accepted op = .ok y ∧ ¬ Continues accepted start y := by
  cases op with
  | append_meta items => exact hempty.elim
  | write buf len hbuf =>
    obtain ⟨hdata, hlen, line, hframes⟩ := hempty
    obtain ⟨ret, enc, user, hrun, -, hadds⟩ := frames_adds hacc h.1 hbuf hframes
    refine ⟨_, run_bind hrun rfl, fun hcontinues => hdata ?_⟩
    apply hcontinues.2 _ (List.mem_append_right _ (List.mem_singleton_self _))
    dsimp only
    rw [hadds, List.drop_left]
    exact (zero_header_iff hframes.line buf _).mpr (chunk_size_eq_zero.mpr (.inr hlen))

/-- **Last chunks.** In a run only the writes of NULL add a last chunk to the stream exactly when no
write frames a buffer of length 0. -/
theorem data_continues_iff (hacc : Accepts cb accepted) {grants : Grants} {enc : httpp_encoding_t}
    (hnew : Fresh grants enc) (hlimited : Limited grants) (s : σ) (ops : List Op) :
    (∀ pre post x, ops = pre ++ post → pre.foldlM (Writer.call cb accepted) ⟨enc, s, []⟩ = .ok x →
        Continues accepted (accepted s) x) ↔
      ∀ pre op post x, ops = pre ++ op :: post →
      pre.foldlM (Writer.call cb accepted) ⟨enc, s, []⟩ = .ok x →
        ¬ EmptyFrame cb x op := by
  have hready := hnew.ready hlimited
  have h0 : Continues accepted (accepted s) ⟨enc, s, []⟩ := by
    refine ⟨?_, by simp⟩
    rw [hnew.eq]
    rfl
  exact run_iff (fun x => Ready x.enc ∧ Continues accepted (accepted s) x) (fun _ h => h.2)
    (call_continues hacc) (empty_ends hacc) ⟨hready, h0⟩ ops

/-- An allocator that has memory for all that can be addressed. -/
def addressable : Grants := fun _ _ size => decide (size < 2 ^ 63)

theorem addressable_limited : Limited addressable := by
  intro site n size hsize
  exact decide_eq_false (by omega)

/-- A write of no data. -/
def no_data : Op := .write (some []) 0 (by simp)

/-- The stream ends although NULL was never written. -/
theorem data_ends :
    ¬ ∀ (cb : WriteCallback Pipe) (accepted : Pipe → Bytes) (grants : Grants)
      (enc : httpp_encoding_t) (s : Pipe) (ops : List Op), Accepts cb accepted → Fresh grants enc →
      Limited grants →
        ∀ pre post x, ops = pre ++ post →
        pre.foldlM (Writer.call cb accepted) ⟨enc, s, []⟩ = .ok x →
          Continues accepted (accepted s) x := by
  intro h
  obtain ⟨x, hrun, hadded⟩ : ∃ x, [no_data].foldlM (Writer.call Pipe.send Pipe.taken)
      ⟨chunked_encoding addressable, { taken := [], rooms := [8] }, []⟩ = .ok x ∧
      x.added = [(some [], frame [] (some []) 0)] := ⟨_, rfl, rfl⟩
  obtain ⟨-, hnull⟩ := h Pipe.send Pipe.taken addressable _ _ [no_data] Pipe.send_accepts
    (fresh_chunked (by decide)) addressable_limited [no_data] [] x rfl hrun
  have hheader : ZeroHeader (frame [] (some []) 0) :=
    (zero_header_iff (.inl rfl) (some []) 0).mpr rfl
  rw [hadded] at hnull
  exact absurd (hnull _ (List.mem_singleton_self _) hheader) (by decide)

theorem ab_within (block : Bytes) (h : some (ascii "ab") = some block) : 2 ≤ block.length := by
  cases h
  decide

theorem null_within (block : Bytes) (h : none = some block) : 0 ≤ block.length := nomatch h

def titled_ops : List Op :=
  [.append_meta [title.item], .write (some (ascii "ab")) 2 ab_within, .write none 0 null_within]

theorem data_continues_iff_titled :
    let x0 : Writer Pipe := ⟨chunked_encoding addressable, { taken := [], rooms := [3, 0, 5] }, []⟩
    (∀ pre post x, titled_ops = pre ++ post →
      pre.foldlM (Writer.call Pipe.send Pipe.taken) x0 = .ok x →
        Continues Pipe.taken [] x) ↔
      ∀ pre op post x, titled_ops = pre ++ op :: post →
        pre.foldlM (Writer.call Pipe.send Pipe.taken) x0 = .ok x → ¬ EmptyFrame Pipe.send x op :=
  data_continues_iff Pipe.send_accepts (fresh_chunked (by decide)) addressable_limited _ titled_ops

end Encoding
