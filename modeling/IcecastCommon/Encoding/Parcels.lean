import IcecastCommon.Encoding.Malformed
import IcecastCommon.Encoding.Quotes

/-!
# Chunks with metadata

A stream whose chunk headers announce metadata, as the writer sends it, and what the decoder makes
of each piece of it: the body is delivered, and the metadata is stored.
-/

namespace Encoding

open Lib

/-- A chunk with the metadata in its header. -/
structure Parcel where
  chunk : Chunk
  ps : List Pair
  restored : ∀ p ∈ ps, Restored p

namespace Parcel

def header (c : Parcel) : Bytes := c.chunk.digits ++ extensions c.ps

def line (c : Parcel) : Bytes := c.header ++ crlf

end Parcel

/-- The bytes of the parcels, with what comes after them. -/
def wire (further : Bytes) : List Parcel → Bytes
  | [] => further
  | c :: cs => c.line ++ (c.chunk.body ++ crlf ++ wire further cs)

def payload (cs : List Parcel) : Bytes := cs.flatMap fun c => c.chunk.body

def news (cs : List Parcel) : List Pair := cs.flatMap Parcel.ps

/-- Only the final parcel has no body. -/
def Sealed : List Parcel → Prop
  | [] => True
  | c :: cs => (c.chunk.body = [] ↔ cs = []) ∧ Sealed cs

/-! ## The search for the end of a header -/

theorem scan_loop_found {s : Scan} (i : Nat) (l rest : Bytes) (hLF : s.offset_LF = -1)
    (hfound : (scan_loop s i l).offset_LF ≠ -1) : scan_loop s i (l ++ rest) = scan_loop s i l := by
  induction l generalizing s i with
  | nil => exact absurd hLF hfound
  | cons c l ih =>
    rw [List.cons_append]
    rcases scan_loop_step s i c with ⟨-, hstop⟩ | ⟨s', hgo, hs'⟩
    · rw [hstop, hstop]
    · rw [hgo] at hfound ⊢
      rw [hgo]
      refine ih (i + 1) ?_ hfound
      rcases hs' with ⟨q, rfl⟩ | ⟨-, -, rfl⟩ | ⟨-, rfl⟩ <;> exact hLF

theorem inside_plain {value : Bytes} (h : BACKSLASH ∉ value) : inside 1 value = 1 := by
  induction value with
  | nil => rfl
  | cons c value ih =>
    rw [List.mem_cons, not_or] at h
    have hstep :
        inside 1 (c :: value) =
          inside (if c = QUOTE then 1 else if c = BACKSLASH then 2 else 1) value := rfl
    rw [hstep, if_neg (show ¬ c = BACKSLASH from fun hc => h.1 hc.symm), ite_self, ih h.2]

namespace Parcel

variable (c : Parcel)

theorem balanced : Balanced c.ps :=
  balanced_of_closed fun p hp =>
    ⟨(c.restored p hp).nulFree, inside_plain (c.restored p hp).no_backslash⟩

theorem nulFree : ∀ p ∈ c.ps, 0 ∉ p.1 ∧ 0 ∉ p.2 :=
  fun p hp => ⟨(c.restored p hp).key.nulFree, (c.restored p hp).nulFree⟩

theorem closed : after_text 0 false (extensions c.ps) = some 0 := by
  rw [← written_nulFree c.nulFree, after_text_written (fun p hp => (c.restored p hp).key)]
  exact c.balanced

theorem line_length : c.line.length = c.chunk.digits.length + (extensions c.ps).length + 2 := by
  simp [line, header, crlf]
  omega

theorem extensions_front (hsome : c.ps ≠ []) : ∃ more, extensions c.ps = ch ';' :: more := by
  obtain ⟨p, ps, hps⟩ := List.exists_cons_of_ne_nil hsome
  rw [hps]
  exact ⟨_, rfl⟩

theorem scan_LF (i : Nat) (rest : Bytes) :
    (scan_loop {} i (c.line ++ rest)).offset_LF = (i + c.header.length + 1 : Nat) := by
  have hscan :=
    (scan_loop_header c.chunk.digits_ne_nil c.chunk.hexadecimal (extensions c.ps) rest i).mpr
      c.closed
  rwa [show c.chunk.digits ++ extensions c.ps ++ (crlf ++ rest) =
    c.line ++ rest by simp [line, header]] at hscan

theorem scan_CR (i : Nat) (rest : Bytes) :
    (scan_loop {} i (c.line ++ rest)).offset_CR = (i + c.header.length : Nat) := by
  have hLF := c.scan_LF i rest
  rcases scan_loop_placed (s := {}) (c.line ++ rest) (le_refl i) rfl ⟨.inl rfl, .inl rfl⟩
    with hnone | ⟨k, -, hend, hCR, -⟩
  · omega
  · rw [hCR]
    omega

theorem scan_extentions (i : Nat) (rest : Bytes) :
    (scan_loop {} i (c.line ++ rest)).offset_extentions =
      if c.ps = [] then -1 else ((i + c.chunk.digits.length : Nat) : Int) := by
  cases hps : c.ps with
  | nil =>
    have hline : c.line ++ rest = c.chunk.digits ++ crlf ++ rest := by
      simp [line, header, hps, extensions]
    rw [if_pos rfl, hline, scan_loop_line c.chunk.hexadecimal]
  | cons p ps =>
    obtain ⟨more, hmore⟩ := c.extensions_front (by simp [hps])
    have hline : c.line ++ rest = c.chunk.digits ++ ch ';' :: (more ++ crlf ++ rest) := by
      simp [line, header, hmore]
    -- The first `;` is noted, and no other.
    have hsemi : scan_loop {} (i + c.chunk.digits.length) (ch ';' :: (more ++ crlf ++ rest)) =
        scan_loop { offset_extentions := (i + c.chunk.digits.length : Nat) }
          (i + c.chunk.digits.length + 1)
          (more ++ crlf ++ rest) := by
      rw [scan_loop, if_neg (by simp), if_neg (by decide), if_pos ⟨rfl, rfl⟩]
    rw [if_neg (List.cons_ne_nil p ps), hline, scan_loop_digits c.chunk.hexadecimal, hsemi]
    refine scan_loop_extentions _ _ ?_
    show ((i + c.chunk.digits.length : Nat) : Int) ≠ -1
    omega

theorem split {u rest z : Bytes} (i : Nat) (h : u ++ rest = c.line ++ z) :
    ((scan_loop {} i u).offset_LF = -1 ∧ z.length < rest.length) ∨ ∃ w, u = c.line ++ w ∧
      w ++ rest = z := by
  rcases List.append_eq_append_iff.mp h with ⟨a, ha, hrest⟩ | ⟨w, hu, hz⟩
  · by_cases hnil : a = []
    · rw [hnil, List.append_nil] at ha
      rw [hnil, List.nil_append] at hrest
      exact .inr ⟨[], by rw [ha, List.append_nil], by rw [hrest, List.nil_append]⟩
    · have hpos := List.length_pos_iff.mpr hnil
      have hlen := congrArg List.length ha
      rw [List.length_append, line_length] at hlen
      refine .inl ⟨?_, by rw [hrest, List.length_append]; omega⟩
      by_contra hfound
      obtain ⟨j, hj, hlt, -⟩ := scan_loop_end hfound
      have hwhole := c.scan_LF i z
      rw [ha, List.append_assoc, scan_loop_found i u _ rfl hfound, hj] at hwhole
      simp only [header, List.length_append] at hwhole
      omega
  · exact .inr ⟨w, hu, hz.symm⟩

end Parcel

/-! ## The header -/

section Header

variable {self : httpp_encoding_t} {b u w unset : Bytes}

theorem header_unfinished (hraw : self.buf_read_raw = some b)
    (h : Holds (some b) self.buf_read_raw_offset self.buf_read_raw_len u)
    (hLF : (scan_loop {} self.buf_read_raw_offset u).offset_LF = -1) :
    enc_chunked_read_header unset self = .ok (0, self) := by
  unfold enc_chunked_read_header
  simp only [hraw, deref, pure_eq_ok, ok_bind, raw_window h, hLF, if_true]

theorem extentions_loop_news (self : httpp_encoding_t) {raw rest : Bytes} {p fuel : Nat}
    {ps : List Pair} (hgen : Generous self.grants) (hps : ∀ x ∈ ps, Restored x)
    (hp : p ≤ raw.length) (hraw : raw.drop p = extensions ps ++ rest)
    (hfuel : (extensions ps).length < fuel) :
    ∃ grants, Generous grants ∧ extentions_loop raw fuel self p (extensions ps).length =
      .ok { self with meta_read := self.meta_read ++ ps.map stored, grants := grants } := by
  induction ps generalizing self p fuel with
  | nil =>
    obtain ⟨n, rfl⟩ : ∃ n, fuel = n + 1 := ⟨fuel - 1, by omega⟩
    refine ⟨self.grants, hgen, ?_⟩
    rw [extentions_loop, if_pos (by rfl)]
    simp
  | cons x ps ih =>
    have hcons : extensions (x :: ps) = extension x ++ extensions ps := rfl
    obtain ⟨n, rfl⟩ : ∃ n, fuel = n + 1 := ⟨fuel - 1, by omega⟩
    rw [hcons, List.append_assoc] at hraw
    rw [hcons, List.length_append] at hfuel ⊢
    have hsize := extension_length (hps x (by simp)).ne_nil
    have hbehind : p + (extension x).length ≤ raw.length := by
      have := congrArg List.length hraw
      rw [List.length_drop, List.length_append] at this
      omega
    obtain ⟨grants, hgen', hstep⟩ :=
      extentions_loop_extension n ((extension x).length + (extensions ps).length)
        hgen (hps x (by simp)) hp hraw (by omega)
    rw [Nat.add_sub_cancel_left] at hstep
    let taken := { self with meta_read := self.meta_read ++ [stored x], grants := grants }
    obtain ⟨grants', hgen'', hrest⟩ :=
      ih taken hgen' (fun y hy => hps y (List.mem_cons_of_mem x hy)) hbehind
        (drop_behind hraw) (show (extensions ps).length < n by omega)
    refine ⟨grants', hgen'', ?_⟩
    rw [hstep, hrest]
    simp [taken]

/-- The decoder behind the header of `c`, whose metadata is stored. -/
def header_taken (self : httpp_encoding_t) (c : Parcel) (b' : Bytes) (offset' : Nat)
    (grants : Grants) : httpp_encoding_t :=
  { self with buf_read_raw := some b', buf_read_raw_offset := offset', grants := grants
              meta_read := self.meta_read ++ c.ps.map stored }

/-- A block with the header of `c` at `offset`, and a NUL in place of the first `;`. -/
theorem cut_header (c : Parcel) {offset cut : Nat} (hsome : c.ps ≠ [])
    (hleft : b.drop offset = c.line ++ w) (hcut : offset + c.chunk.digits.length = cut) :
    b.drop cut = extensions c.ps ++ (crlf ++ w) ∧
      (∃ rest, (b.set cut 0).drop offset = c.chunk.digits ++ 0 :: rest) ∧
      (b.set cut 0).drop (cut + (extensions c.ps).length + 2) = w := by
  obtain ⟨more, hmore⟩ := c.extensions_front hsome
  have hat : b.drop cut = extensions c.ps ++ (crlf ++ w) := by
    rw [← hcut, ← List.drop_drop, hleft]
    simp [Parcel.line, Parcel.header]
  refine ⟨hat, ⟨more ++ crlf ++ w, ?_⟩, ?_⟩
  · rw [← hcut]
    refine drop_cut (x := ch ';') ?_
    rw [hleft]
    simp [Parcel.line, Parcel.header, hmore]
  · rw [List.drop_set, if_pos (by rw [hmore, List.length_cons]; omega), Nat.add_assoc,
      ← List.drop_drop, hat]
    simp [crlf, List.drop_append]

/-- A header that has come in is read as the size of its body and as its metadata. -/
theorem header_parcel (c : Parcel) (hraw : self.buf_read_raw = some b) (hgen : Generous self.grants)
    (h : Holds (some b) self.buf_read_raw_offset self.buf_read_raw_len (c.line ++ w)) :
    ∃ b' offset' grants, Holds (some b') offset' self.buf_read_raw_len w ∧ Generous grants ∧
      enc_chunked_read_header unset self =
      enc_chunked_read_body (header_taken self c b' offset' grants) c.chunk.body.length := by
  cases hps : c.ps with
  | nil =>
    have hline : c.line = c.chunk.digits ++ crlf := by
      simp [Parcel.line, Parcel.header, hps, extensions]
    rw [hline] at h
    obtain ⟨-, -, b', offset', hb', hrun⟩ := header_line c.chunk hraw h
    refine ⟨b', offset', self.grants, hb', hgen, ?_⟩
    rw [hrun, header_taken, hps, List.map_nil, List.append_nil]
  | cons p ps =>
    have hblock : b.length = self.buf_read_raw_len := h.length
    have hlen := h.length_eq
    have hline := c.line_length
    rw [List.length_append] at hlen
    have hheader : c.header.length = c.chunk.digits.length + (extensions c.ps).length :=
      List.length_append
    have hsome : c.ps ≠ [] := by simp [hps]
    obtain ⟨cut, hcut⟩ : ∃ cut, self.buf_read_raw_offset + c.chunk.digits.length = cut := ⟨_, rfl⟩
    have hleft : b.drop self.buf_read_raw_offset = c.line ++ w := h.left
    obtain ⟨hat, ⟨rest, hdigits⟩, hbehind⟩ := cut_header c hsome hleft hcut
    have hholds :
        Holds (some (b.set cut 0)) (cut + (extensions c.ps).length + 2) self.buf_read_raw_len w :=
      ⟨by omega, by simpa using hblock, hbehind⟩
    have hlook : (b ++ unset).drop cut = extensions c.ps ++ (crlf ++ w ++ unset) := by
      rw [List.drop_append_of_le_length (by omega), hat, List.append_assoc]
    obtain ⟨grants, hgen', hnews⟩ :=
      extentions_loop_news _ hgen c.restored (by rw [List.length_append]; omega) hlook
        (Nat.lt_succ_self _)
    have hparsed : enc_chunked_read_extentions self (b ++ unset) cut (extensions c.ps).length = _ :=
      hnews
    have hext : ((cut : Nat) : Int) ≠ -1 := by omega
    have hbetween :
        (((self.buf_read_raw_offset + c.header.length : Nat) : Int) - (cut : Nat)).toNat =
          (extensions c.ps).length := by omega
    have hend : (((self.buf_read_raw_offset + c.header.length + 1 : Nat) : Int) + 1).toNat =
        cut + (extensions c.ps).length + 2 := by omega
    refine ⟨b.set cut 0, cut + (extensions c.ps).length + 2, grants, hholds, hgen', ?_⟩
    unfold enc_chunked_read_header
    simp only [hraw, deref, pure_eq_ok, ok_bind, raw_window h, c.scan_LF, c.scan_CR,
      c.scan_extentions, if_neg hsome, hcut]
    rw [if_neg (by omega), if_neg hext, Int.toNat_natCast, hbetween, hparsed, ok_bind, if_pos hext,
      store_eq (show cut < b.length by omega), ok_bind, hdigits, cstring_append c.chunk.nulFree,
      ok_bind, c.chunk.scanned]
    simp only [hend]
    rfl

end Header

end Encoding
