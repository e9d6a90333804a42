import IcecastCommon.Encoding.Header

/-!
# Where the decoder is

The six fields of the decoder say together where in the stream it is. A fragment moves it on,
by at most one header.
-/

namespace Encoding

open Lib

/-- The decoder has still to read the lines of `ls`, and to take `owed` from the body before
them. `rest` is what the backend has left, and `further` what comes after the message.
`ample` says that no allocation fails. -/
inductive Phase (ample : Prop) (further : Bytes) (self : httpp_encoding_t) (rest : Bytes) :
    List Chunk → Bytes → Prop
  | header {ls : List Chunk} {u : Bytes} (more : ls ≠ []) (eof : self.bytes_till_eof = -1)
      (skip : self.read_bytes_till_header = 0)
      (raw : Holds self.buf_read_raw self.buf_read_raw_offset self.buf_read_raw_len u)
      (coming : u ++ rest = text further ls) : Phase ample further self rest ls []
  | body {ls : List Chunk} {owed u : Bytes} (eof : self.bytes_till_eof = if ls = [] then 2 else -1)
      (small : owed.length + 2 < 2 ^ 64) (skip : self.read_bytes_till_header = owed.length + 2)
      (raw : Holds self.buf_read_raw self.buf_read_raw_offset self.buf_read_raw_len u)
      (coming : u ++ rest = owed ++ crlf ++ text further ls) (few : u.length ≤ 1)
      (direct : owed ≠ [] → u = []) :
      Phase ample further self rest ls owed
  /-- The end is known, and no `"\r\n"` is expected. -/
  | stray {u : Bytes} (eof : self.bytes_till_eof = 2) (skip : self.read_bytes_till_header = 0)
      (raw : Holds self.buf_read_raw self.buf_read_raw_offset self.buf_read_raw_len u)
      (none_left : ample → further = [] → u = [] ∧ rest = []) :
      Phase ample further self rest [] []
  | eof {u : Bytes} (eof : self.bytes_till_eof = 0) (skip : self.read_bytes_till_header = 0)
      (raw : Holds self.buf_read_raw self.buf_read_raw_offset self.buf_read_raw_len u)
      (none_left : ample → further = [] → u = [] ∧ rest = []) :
      Phase ample further self rest [] []

theorem Phase.congr {ample : Prop} {further rest owed : Bytes} {self self' : httpp_encoding_t}
    {ls : List Chunk} (h : Phase ample further self rest ls owed)
    (hkept : ∀ {u}, Holds self.buf_read_raw self.buf_read_raw_offset self.buf_read_raw_len u →
      Holds self'.buf_read_raw self'.buf_read_raw_offset self'.buf_read_raw_len u)
    (heof : self'.bytes_till_eof = self.bytes_till_eof)
    (hskip : self'.read_bytes_till_header = self.read_bytes_till_header) :
    Phase ample further self' rest ls owed := by
  cases h with
  | header more eof skip raw coming =>
    exact .header more (heof.trans eof) (hskip.trans skip) (hkept raw) coming
  | body eof small skip raw coming few direct =>
    exact .body (heof.trans eof) small (hskip.trans skip) (hkept raw) coming few direct
  | stray eof skip raw none_left =>
    exact .stray (heof.trans eof) (hskip.trans skip) (hkept raw) none_left
  | eof eof skip raw none_left =>
    exact .eof (heof.trans eof) (hskip.trans skip) (hkept raw) none_left

/-- The lines left after a fragment, when `r` bytes of the stream are left: one less if the next
line has come in whole. -/
def advance (further : Bytes) (ls : List Chunk) (r : Nat) : List Chunk :=
  match ls with
  | [] => []
  | c :: tl => if r ≤ (c.body ++ crlf ++ text further tl).length then tl else c :: tl

/-- The decoder went from `old` to `new`, and `due` is what it has still to deliver. -/
structure Outcome (ample : Prop) (further rest : Bytes) (old : httpp_encoding_t) (ls : List Chunk)
    (due : Bytes) (ret : Int) (new : httpp_encoding_t) : Prop where
  result : ret = 0 ∨ ret = -1
  process : new.process = old.process
  later : Later old.grants new.grants
  phase : ∃ owed d, Phase ample further new rest (advance further ls rest.length) owed ∧
    Holds new.buf_read_decoded new.buf_read_decoded_offset new.buf_read_decoded_len d ∧
    d ++ owed ++ bodies (advance further ls rest.length) = due
  /-- With the last byte of the message, the end is known if the last line was read just now. -/
  ended : ample → further = [] → rest = [] →
    (new.bytes_till_eof = 0 ↔ ls ≠ [] ∧ advance further ls rest.length = [])

/-- The decoder, with nothing decoded that is not delivered. -/
def Drained (self : httpp_encoding_t) : Prop :=
  self.buf_read_decoded = none ∧ self.buf_read_decoded_offset = 0 ∧ self.buf_read_decoded_len = 0

theorem Drained.holds {self : httpp_encoding_t} (h : Drained self) :
    Holds self.buf_read_decoded self.buf_read_decoded_offset self.buf_read_decoded_len [] := by
  rw [h.1, h.2.1, h.2.2]
  exact Holds.null

/-! ## The body of a chunk -/

section Body

variable {ample : Prop} {further rest b w : Bytes} {self : httpp_encoding_t} {c : Chunk}
  {tl : List Chunk}

theorem advance_line (hw : w ++ rest = c.body ++ crlf ++ text further tl) :
    advance further (c :: tl) rest.length = tl := by
  have hle : rest.length ≤ (c.body ++ crlf ++ text further tl).length := by
    rw [← hw, List.length_append]
    omega
  exact if_pos hle

theorem bodies_cons : bodies (c :: tl) = c.body ++ bodies tl := rfl

theorem length_eq_zero_iff_last (hc : c.body = [] ↔ tl = []) : c.body.length = 0 ↔ tl = [] := by
  rw [List.length_eq_zero_iff, hc]

theorem read_body_empty (h : self.buf_read_raw_offset = self.buf_read_raw_len) (bodylen : Nat) :
    enc_chunked_read_body self bodylen = .ok (0,
      { self with bytes_till_eof := if bodylen = 0 then 2 else self.bytes_till_eof
                  buf_read_raw := none, buf_read_raw_offset := 0, buf_read_raw_len := 0
                  read_bytes_till_header := (bodylen + 2) % 2 ^ 64 }) := by
  unfold enc_chunked_read_body
  exact if_pos h

theorem read_body_part (h : self.buf_read_raw_offset ≠ self.buf_read_raw_len)
    {have_len bodylen : Nat}
    (hhave : size_sub self.buf_read_raw_len self.buf_read_raw_offset = have_len)
    (hle : have_len ≤ bodylen) :
    enc_chunked_read_body self bodylen = .ok (0,
      { self with bytes_till_eof := if bodylen = 0 then 2 else self.bytes_till_eof
                  buf_read_decoded := self.buf_read_raw,
                  buf_read_decoded_offset := self.buf_read_raw_offset
                  buf_read_decoded_len := self.buf_read_raw_len
                  buf_read_raw := none, buf_read_raw_offset := 0, buf_read_raw_len := 0
                  read_bytes_till_header := size_sub ((bodylen + 2) % 2 ^ 64) have_len }) := by
  subst hhave
  unfold enc_chunked_read_body
  exact (if_neg h).trans (if_pos hle)

theorem body_empty (hdec : Drained self)
    (h : Holds (some b) self.buf_read_raw_offset self.buf_read_raw_len [])
    (heof : self.bytes_till_eof = -1) (hc : c.body = [] ↔ tl = [])
    (hw : rest = c.body ++ crlf ++ text further tl) :
    ∃ ret self', enc_chunked_read_body self c.body.length = .ok (ret, self') ∧
      Outcome ample further rest self (c :: tl) (bodies (c :: tl)) ret self' := by
  have hlen : self.buf_read_raw_offset = self.buf_read_raw_len := by simpa using h.length_eq.symm
  have hadv : advance further (c :: tl) rest.length = tl := advance_line (w := []) hw
  have hrun : enc_chunked_read_body self c.body.length = .ok (0,
      { self with bytes_till_eof := if tl = [] then 2 else -1
                  buf_read_raw := none, buf_read_raw_offset := 0, buf_read_raw_len := 0
                  read_bytes_till_header := c.body.length + 2 }) := by
    simp only [read_body_empty hlen, heof, length_eq_zero_iff_last hc, Nat.mod_eq_of_lt c.small]
  refine ⟨_, _, hrun, .inl rfl, rfl, Later.refl _, ⟨c.body, [], ?_, hdec.holds, ?_⟩, ?_⟩
  · rw [hadv]
    exact .body rfl c.small rfl Holds.null hw (by simp) (fun _ => rfl)
  · rw [hadv, List.nil_append, bodies_cons]
  · rintro - - rfl
    simp [crlf] at hw

theorem body_part (hraw : self.buf_read_raw = some b)
    (h : Holds (some b) self.buf_read_raw_offset self.buf_read_raw_len w)
    (heof : self.bytes_till_eof = -1) (hc : c.body = [] ↔ tl = []) (hne : w ≠ [])
    (hle : w.length ≤ c.body.length) (hw : w ++ rest = c.body ++ crlf ++ text further tl) :
    ∃ ret self', enc_chunked_read_body self c.body.length = .ok (ret, self') ∧
      Outcome ample further rest self (c :: tl) (bodies (c :: tl)) ret self' := by
  have hpos : 0 < w.length := List.length_pos_iff.mpr hne
  have hlen : self.buf_read_raw_offset ≠ self.buf_read_raw_len := by
    have := h.length_eq
    omega
  have hadv := advance_line hw
  -- The body is `w` and what is owed.
  have hbody : w ++ c.body.drop w.length = c.body := by
    have htake := congrArg (List.take w.length) hw
    rw [List.take_left, List.append_assoc, List.take_append_of_le_length hle] at htake
    conv_lhs => rw [htake]
    rw [List.length_take, Nat.min_eq_left hle, List.take_append_drop]
  have hrest : rest = c.body.drop w.length ++ crlf ++ text further tl := by
    rw [← hbody] at hw
    simpa using hw
  have hsub : size_sub (c.body.length + 2) w.length = (c.body.drop w.length).length + 2 := by
    rw [size_sub_of_le (by omega), List.length_drop]
    omega
  have hmore : tl ≠ [] := by
    rw [ne_eq, ← hc, ← List.length_eq_zero_iff]
    omega
  have hrun : enc_chunked_read_body self c.body.length = .ok (0,
      { self with bytes_till_eof := if tl = [] then 2 else -1
                  buf_read_decoded := some b, buf_read_decoded_offset := self.buf_read_raw_offset
                  buf_read_decoded_len := self.buf_read_raw_len
                  buf_read_raw := none, buf_read_raw_offset := 0, buf_read_raw_len := 0
                  read_bytes_till_header := (c.body.drop w.length).length + 2 }) := by
    simp only [read_body_part hlen h.size_sub_eq hle, heof, length_eq_zero_iff_last hc,
      Nat.mod_eq_of_lt c.small, hsub, hraw]
  refine ⟨_, _, hrun, .inl rfl, rfl, Later.refl _, ⟨c.body.drop w.length, w, ?_, h, ?_⟩, ?_⟩
  · rw [hadv]
    refine .body rfl ?_ rfl Holds.null hrest (by simp) (fun _ => rfl)
    rw [List.length_drop]
    have := c.small
    omega
  · rw [hadv, hbody, bodies_cons]
  · rintro - - rfl
    simp [crlf] at hrest

theorem past_phase {self : httpp_encoding_t} {u : Bytes}
    (heof : self.bytes_till_eof = if tl = [] then 0 else -1)
    (hskip : self.read_bytes_till_header = 0)
    (h : Holds self.buf_read_raw self.buf_read_raw_offset self.buf_read_raw_len u)
    (hu : u ++ rest = text further tl) : Phase ample further self rest tl [] := by
  by_cases hlast : tl = []
  · subst hlast
    refine .eof heof hskip h fun _ hfurther => ?_
    rw [hfurther] at hu
    exact List.append_eq_nil_iff.mp hu
  · rw [if_neg hlast] at heof
    exact .header hlast heof hskip h hu

theorem body_refused (hdec : Drained self) (hraw : self.buf_read_raw = some b)
    (h : Holds (some b) self.buf_read_raw_offset self.buf_read_raw_len w)
    (hskip : self.read_bytes_till_header = 0) (hc : c.body = [] ↔ tl = [])
    (hlt : c.body.length < w.length) (hample : ample → Generous self.grants)
    (hw : w ++ rest = c.body ++ (crlf ++ text further tl)) (hlast : tl = [])
    (hroom : ¬ self.grants .read_decoded 0 c.body.length = true) :
    ∃ ret self', enc_chunked_read_body self c.body.length = .ok (ret, self') ∧
      Outcome ample further rest self (c :: tl) (bodies (c :: tl)) ret self' := by
  have hlen : self.buf_read_raw_offset ≠ self.buf_read_raw_len := by
    have := h.length_eq
    omega
  have hle : ¬ w.length ≤ c.body.length := by omega
  have hadv := advance_line (hw.trans (List.append_assoc _ _ _).symm)
  have hrun : enc_chunked_read_body self c.body.length = .ok (-1,
      { self with bytes_till_eof := 2, grants := (malloc self.grants .read_decoded c.body.length).2
                  buf_read_decoded := none }) := by
    unfold enc_chunked_read_body
    simp only [hlen, if_false, h.size_sub_eq, hle, malloc, hroom, Bool.false_eq_true,
      not_false_eq_true, if_true, pure_eq_ok, length_eq_zero_iff_last hc, hlast]
  refine ⟨_, _, hrun, .inr rfl, rfl, malloc_later self.grants .read_decoded c.body.length,
    ⟨[], [], ?_, ?_, ?_⟩, ?_⟩
  · rw [hadv, hlast]
    have hkept : Holds self.buf_read_raw self.buf_read_raw_offset self.buf_read_raw_len w := by
      rw [hraw]
      exact h
    exact .stray rfl hskip hkept fun ha => absurd (hample ha .read_decoded 0 c.body.length) hroom
  · simpa only [hdec.1] using hdec.holds
  · rw [hadv, bodies_cons, hc.mpr hlast]
    rfl
  · intro ha
    exact absurd (hample ha .read_decoded 0 c.body.length) hroom

/-- The decoder with a body moved over. -/
def body_moved (self : httpp_encoding_t) (body : Bytes) : httpp_encoding_t :=
  { self with bytes_till_eof := if body.length = 0 then 2 else self.bytes_till_eof
              grants := (malloc self.grants .read_decoded body.length).2
              buf_read_decoded := some body, buf_read_decoded_offset := 0,
              buf_read_decoded_len := body.length
              buf_read_raw_offset := self.buf_read_raw_offset + body.length
              read_bytes_till_header := 2 }

/-- The decoder with the `"\r\n"` behind the body skipped. -/
def body_skipped (self : httpp_encoding_t) (body : Bytes) : httpp_encoding_t :=
  { body_moved self body with
    buf_read_raw_offset := self.buf_read_raw_offset + body.length + 2
    read_bytes_till_header := 0
    bytes_till_eof :=
      if (body_moved self body).bytes_till_eof ≠ -1 then 0
      else (body_moved self body).bytes_till_eof }

theorem body_moves {body v : Bytes} (hraw : self.buf_read_raw = some b)
    (h : Holds (some b) self.buf_read_raw_offset self.buf_read_raw_len (body ++ v))
    (hv : 0 < v.length) (hgrant : self.grants .read_decoded 0 body.length = true) :
    enc_chunked_read_body self body.length =
      .ok (0, if v.length < 2 then body_moved self body
        else if v.length = 2 then
          { body_skipped self body with
            buf_read_raw := none, buf_read_raw_len := 0, buf_read_raw_offset := 0 }
        else body_skipped self body) := by
  have hlength := h.length_eq
  rw [List.length_append] at hlength
  have hlen : self.buf_read_raw_offset ≠ self.buf_read_raw_len := by omega
  have hhave :
      size_sub self.buf_read_raw_len self.buf_read_raw_offset = body.length + v.length := by
    rw [h.size_sub_eq, List.length_append]
  have hle : ¬ body.length + v.length ≤ body.length := by omega
  have hslice : slice b self.buf_read_raw_offset body.length = .ok body := by
    have hb : b.length = self.buf_read_raw_len := h.length
    have hleft : b.drop self.buf_read_raw_offset = body ++ v := h.left
    rw [slice_eq (by omega), hleft, List.take_left]
  have hbehind : size_sub self.buf_read_raw_len (self.buf_read_raw_offset + body.length) =
      v.length := by
    rw [size_sub_of_le (by omega)]
    omega
  unfold enc_chunked_read_body
  simp only [hlen, if_false, hhave, hle, malloc, hgrant, not_true, hraw, deref, pure_eq_ok, ok_bind,
    hslice, hbehind]
  by_cases hshort : v.length < 2
  · simp only [if_pos hshort, body_moved, malloc, hraw]
  · have hlast : size_sub self.buf_read_raw_len (self.buf_read_raw_offset + body.length + 2) = 0 ↔
        v.length = 2 := by
      rw [size_sub_of_le (by omega)]
      omega
    simp only [if_neg hshort, hlast]
    by_cases htwo : v.length = 2
    · simp only [if_pos htwo, body_skipped, body_moved, malloc]
      rfl
    · simp only [if_neg htwo, body_skipped, body_moved, malloc, hraw]

theorem body_outcome {new : httpp_encoding_t} (hprocess : new.process = self.process)
    (hlater : Later self.grants new.grants)
    (hdecoded : Holds new.buf_read_decoded new.buf_read_decoded_offset
      new.buf_read_decoded_len c.body)
    (hadv : advance further (c :: tl) rest.length = tl)
    (hphase : Phase ample further new rest tl [])
    (hended : ample → further = [] → rest = [] → (new.bytes_till_eof = 0 ↔ tl = [])) :
    Outcome ample further rest self (c :: tl) (bodies (c :: tl)) 0 new := by
  refine ⟨.inl rfl, hprocess, hlater, ⟨[], c.body, ?_, hdecoded, ?_⟩, fun ha hf hr => ?_⟩
  · rw [hadv]
    exact hphase
  · rw [hadv, List.append_nil, bodies_cons]
  · rw [hadv, hended ha hf hr]
    simp

theorem body_rest (hdec : Drained self) (hraw : self.buf_read_raw = some b)
    (h : Holds (some b) self.buf_read_raw_offset self.buf_read_raw_len w)
    (heof : self.bytes_till_eof = -1) (hskip : self.read_bytes_till_header = 0)
    (hc : c.body = [] ↔ tl = []) (hlt : c.body.length < w.length)
    (hroom : 0 < c.body.length → self.grants .read_decoded 0 c.body.length = true)
    (hample : ample → Generous self.grants) (hw : w ++ rest = c.body ++ crlf ++ text further tl) :
    ∃ ret self', enc_chunked_read_body self c.body.length = .ok (ret, self') ∧
      Outcome ample further rest self (c :: tl) (bodies (c :: tl)) ret self' := by
  have hadv := advance_line hw
  rw [List.append_assoc] at hw
  by_cases hgrant : self.grants .read_decoded 0 c.body.length = true
  · obtain ⟨v, rfl, hv⟩ := append_split hw hlt.le
    have hvpos : 0 < v.length := by simpa using hlt
    have hmoves := body_moves hraw h hvpos hgrant
    have hbehind :
        Holds (some b) (self.buf_read_raw_offset + c.body.length) self.buf_read_raw_len v := by
      simpa using h.skip (k := c.body.length) (by simp)
    have hdecoded : Holds (some c.body) 0 c.body.length c.body := ⟨Nat.zero_le _, rfl, rfl⟩
    have hlater := malloc_later self.grants .read_decoded c.body.length
    have hmoved : (body_moved self c.body).bytes_till_eof = if tl = [] then 2 else -1 := by
      simp only [body_moved, heof, length_eq_zero_iff_last hc]
    have hskipped : (body_skipped self c.body).bytes_till_eof = if tl = [] then 0 else -1 := by
      rw [body_skipped, hmoved]
      split <;> simp
    have hended : (body_skipped self c.body).bytes_till_eof = 0 ↔ tl = [] := by
      rw [hskipped]
      split_ifs with hlast <;> simp [hlast]
    by_cases hshort : v.length < 2
    · rw [if_pos hshort] at hmoves
      refine ⟨0, body_moved self c.body, hmoves, body_outcome rfl hlater hdecoded hadv ?_ ?_⟩
      · refine .body hmoved (by simp) rfl ?_ hv (by omega) (fun hne => absurd rfl hne)
        simpa only [body_moved, hraw] using hbehind
      · rintro - rfl rfl
        have hvlen := congrArg List.length hv
        simp [crlf] at hvlen
        omega
    rw [if_neg hshort] at hmoves
    obtain ⟨z, rfl, hz⟩ := append_split hv (show crlf.length ≤ v.length from Nat.not_lt.mp hshort)
    have htwo : (crlf ++ z).length = 2 ↔ z = [] := by simp [crlf]
    by_cases hz0 : z = []
    · rw [if_pos (htwo.mpr hz0)] at hmoves
      refine ⟨0, _, hmoves, body_outcome rfl hlater hdecoded hadv ?_ fun _ _ _ => hended⟩
      exact past_phase hskipped rfl Holds.null (by rw [← hz, hz0])
    · rw [if_neg fun h2 => hz0 (htwo.mp h2)] at hmoves
      refine ⟨0, _, hmoves, body_outcome rfl hlater hdecoded hadv ?_ fun _ _ _ => hended⟩
      have hpast :
          Holds (some b) (self.buf_read_raw_offset + c.body.length + 2) self.buf_read_raw_len z :=
        hbehind.skip (k := 2) (by simp [crlf])
      refine past_phase hskipped rfl ?_ hz
      simpa only [body_skipped, body_moved, hraw] using hpast
  · -- Only the last chunk asks for no bytes.
    have hlast : tl = [] := by
      rw [← hc, ← List.length_eq_zero_iff]
      by_contra hne
      exact hgrant (hroom (by omega))
    exact body_refused hdec hraw h hskip hc hlt hample hw hlast hgrant

theorem body_turn (hdec : Drained self) (hraw : self.buf_read_raw = some b)
    (h : Holds (some b) self.buf_read_raw_offset self.buf_read_raw_len w)
    (heof : self.bytes_till_eof = -1) (hskip : self.read_bytes_till_header = 0)
    (hc : c.body = [] ↔ tl = [])
    (hroom : 0 < c.body.length → c.body.length < w.length →
      self.grants .read_decoded 0 c.body.length = true)
    (hample : ample → Generous self.grants)
    (hw : w ++ rest = c.body ++ crlf ++ text further tl) :
    ∃ ret self', enc_chunked_read_body self c.body.length = .ok (ret, self') ∧
      Outcome ample further rest self (c :: tl) (bodies (c :: tl)) ret self' := by
  by_cases hne : w = []
  · subst hne
    exact body_empty hdec h heof hc hw
  · by_cases hle : w.length ≤ c.body.length
    · exact body_part hraw h heof hc hne hle hw
    · exact body_rest hdec hraw h heof hskip hc (by omega) (fun hpos =>
        hroom hpos (by omega)) hample hw

end Body

/-! ## From the check of the trailing `"\r\n"` on -/

section Skip

variable {ample : Prop} {further rest b u unset : Bytes} {self : httpp_encoding_t} {ls : List Chunk}

theorem header_turn (hls : Closing ls) (more : ls ≠ []) (hdec : Drained self)
    (hraw : self.buf_read_raw = some b)
    (h : Holds (some b) self.buf_read_raw_offset self.buf_read_raw_len u)
    (heof : self.bytes_till_eof = -1) (hskip : self.read_bytes_till_header = 0)
    (hroom : Affords self) (hample : ample → Generous self.grants)
    (hu : u ++ rest = text further ls) :
    ∃ ret self', enc_chunked_read_header unset self = .ok (ret, self') ∧
      Outcome ample further rest self ls (bodies ls) ret self' := by
  cases ls with
  | nil => exact absurd rfl more
  | cons c tl =>
    rcases split_line hu with ⟨hLF, hlt⟩ | ⟨w, rfl, hw⟩
    · have hadv : advance further (c :: tl) rest.length = c :: tl := if_neg (by omega)
      refine ⟨0, self, header_waits hraw h hLF, .inl rfl, rfl, Later.refl _,
        ⟨[], [], ?_, hdec.holds, ?_⟩, ?_⟩
      · rw [hadv]
        have hkept : Holds self.buf_read_raw self.buf_read_raw_offset self.buf_read_raw_len u := by
          rw [hraw]
          exact h
        exact .header (List.cons_ne_nil c tl) heof hskip hkept hu
      · rw [hadv]
        rfl
      · rintro - - rfl
        simp at hlt
    · obtain ⟨hsize, hbuffered, b', offset', hb', hrun⟩ := header_line c hraw h
      let past : httpp_encoding_t :=
        { self with buf_read_raw := some b', buf_read_raw_offset := offset' }
      have hgrant (hpos : 0 < c.body.length) (hmore : c.body.length < w.length) :
          past.grants .read_decoded 0 c.body.length = true := hroom _ hsize hpos (hbuffered ▸ hmore)
      obtain ⟨ret, self', hbody, hout⟩ :=
        body_turn (show Drained past from hdec) rfl hb' heof hskip hls.1 hgrant hample hw
      exact ⟨ret, self', hrun.trans hbody, hout.result, hout.process, hout.later,
        hout.phase, hout.ended⟩

theorem read_skip_all (unset : Bytes)
    (h : size_sub self.buf_read_raw_len self.buf_read_raw_offset = self.read_bytes_till_header) :
    enc_chunked_read_skip unset self = .ok (0,
      { self with buf_read_raw := none, buf_read_raw_offset := 0, buf_read_raw_len := 0
                  read_bytes_till_header := 0 }) := by
  unfold enc_chunked_read_skip
  exact if_pos h

theorem read_skip_past (unset : Bytes)
    (h : size_sub self.buf_read_raw_len self.buf_read_raw_offset > self.read_bytes_till_header) :
    enc_chunked_read_skip unset self =
      if self.bytes_till_eof = -1 then
        enc_chunked_read_header unset
          { self with buf_read_raw_offset := self.buf_read_raw_offset + self.read_bytes_till_header
                      read_bytes_till_header := 0 }
      else .ok (0,
        { self with buf_read_raw_offset := self.buf_read_raw_offset + self.read_bytes_till_header
                    read_bytes_till_header := 0, bytes_till_eof := 0 }) := by
  unfold enc_chunked_read_skip
  rw [if_neg h.ne', if_pos h]
  by_cases heof : self.bytes_till_eof = -1
  · simp only [heof, ne_eq, not_true, false_and, if_false, if_true]
    rw [if_neg (by decide)]
  · simp only [heof, ne_eq, not_false_eq_true, true_and, if_true, if_false, pure_eq_ok]

theorem skip_search_past
    (h : size_sub self.buf_read_raw_len self.buf_read_raw_offset > self.read_bytes_till_header) :
    skip_search self = if self.bytes_till_eof = -1 then
      some { self with buf_read_raw_offset := self.buf_read_raw_offset + self.read_bytes_till_header
                       read_bytes_till_header := 0 }
      else none := by
  unfold skip_search
  by_cases heof : self.bytes_till_eof = -1
  · simp only [if_neg h.ne', if_pos h, heof, ne_eq, not_true, false_and, if_false, if_true]
    rw [if_neg (by decide)]
  · simp only [if_neg h.ne', if_pos h, heof, ne_eq, not_false_eq_true, true_and, if_true, if_false]

theorem read_skip_wait (unset : Bytes)
    (h : size_sub self.buf_read_raw_len self.buf_read_raw_offset < self.read_bytes_till_header) :
    enc_chunked_read_skip unset self =
      if self.bytes_till_eof = 0 then .ok (0, self) else enc_chunked_read_header unset self := by
  have htill : ¬ (self.bytes_till_eof ≠ -1 ∧ self.read_bytes_till_header = 0) := by omega
  unfold enc_chunked_read_skip
  rw [if_neg h.ne, if_neg h.not_gt]
  simp only [if_neg htill, pure_eq_ok]

theorem skip_header (hls : Closing ls) (more : ls ≠ []) (hdec : Drained self)
    (hraw : self.buf_read_raw = some b)
    (h : Holds (some b) self.buf_read_raw_offset self.buf_read_raw_len u) (hne : u ≠ [])
    (heof : self.bytes_till_eof = -1) (hskip : self.read_bytes_till_header = 0)
    (hroom : ∀ found, skip_search self = some found → Affords found)
    (hample : ample → Generous self.grants) (hu : u ++ rest = text further ls) :
    ∃ ret self', enc_chunked_read_skip unset self = .ok (ret, self') ∧
      Outcome ample further rest self ls (bodies ls) ret self' := by
  have hpos : 0 < u.length := List.length_pos_iff.mpr hne
  have hself :
      { self with
        buf_read_raw_offset := self.buf_read_raw_offset + 0,
        read_bytes_till_header := 0 } = self := by
    rw [Nat.add_zero, ← hskip]
  have hrun : enc_chunked_read_skip unset self = enc_chunked_read_header unset self := by
    rw [read_skip_past _ (by rw [h.size_sub_eq, hskip]; exact hpos), if_pos heof, hskip, hself]
  have hsearch : skip_search self = some self := by
    rw [skip_search_past (by rw [h.size_sub_eq, hskip]; exact hpos), if_pos heof, hskip, hself]
  obtain ⟨ret, self', hhead, hout⟩ :=
    header_turn hls more hdec hraw h heof hskip (hroom self hsearch) hample hu
  exact ⟨ret, self', hrun.trans hhead, hout⟩

theorem skip_stray (hdec : Drained self) (hraw : self.buf_read_raw = some b)
    (h : Holds (some b) self.buf_read_raw_offset self.buf_read_raw_len u) (hne : u ≠ [])
    (heof : self.bytes_till_eof = 2) (hskip : self.read_bytes_till_header = 0)
    (hover : ample → further ≠ []) :
    ∃ ret self', enc_chunked_read_skip unset self = .ok (ret, self') ∧
      Outcome ample further rest self [] [] ret self' := by
  have hpos : 0 < u.length := List.length_pos_iff.mpr hne
  have hrun : enc_chunked_read_skip unset self = .ok (0,
      { self with bytes_till_eof := 0, read_bytes_till_header := 0 }) := by
    rw [read_skip_past _ (by rw [h.size_sub_eq, hskip]; exact hpos), if_neg (by omega), hskip,
      Nat.add_zero]
  refine ⟨_, _, hrun, .inl rfl, rfl, Later.refl _, ⟨[], [], ?_, hdec.holds, rfl⟩, ?_⟩
  · have hkept : Holds self.buf_read_raw self.buf_read_raw_offset self.buf_read_raw_len u := by
      rw [hraw]
      exact h
    exact .eof rfl rfl hkept fun ha hfurther => absurd hfurther (hover ha)
  · intro ha hfurther
    exact absurd hfurther (hover ha)

theorem advance_early (h : (text further ls).length ≤ rest.length) :
    advance further ls rest.length = ls := by
  cases ls with
  | nil => rfl
  | cons c tl =>
    refine if_neg ?_
    have hlong : (c.body ++ crlf ++ text further tl).length < (text further (c :: tl)).length := by
      simp [text, crlf]
      omega
    omega

theorem skip_short (hdec : Drained self) (hraw : self.buf_read_raw = some b)
    (h : Holds (some b) self.buf_read_raw_offset self.buf_read_raw_len u) (hne : u ≠ [])
    (heof : self.bytes_till_eof = if ls = [] then 2 else -1)
    (hskip : self.read_bytes_till_header = 2) (hle : u.length ≤ 2)
    (hu : u ++ rest = crlf ++ text further ls) :
    ∃ ret self', enc_chunked_read_skip unset self = .ok (ret, self') ∧
      Outcome ample further rest self ls (bodies ls) ret self' := by
  have hpos : 0 < u.length := List.length_pos_iff.mpr hne
  obtain ⟨a, ha, hrest⟩ : ∃ a, crlf = u ++ a ∧ rest = a ++ text further ls := by
    obtain ⟨a, ha, hr⟩ := append_split hu.symm hle
    exact ⟨a, ha, hr.symm⟩
  have hadv : advance further ls rest.length = ls := by
    apply advance_early
    rw [hrest, List.length_append]
    omega
  have hlen := congrArg List.length ha
  simp [crlf] at hlen
  have hnot_eof : self.bytes_till_eof ≠ 0 := by
    rw [heof]
    split <;> decide
  have hended : self.bytes_till_eof = 0 ↔ ls ≠ [] ∧ advance further ls rest.length = [] := by
    rw [hadv]
    exact iff_of_false hnot_eof (fun hls => hls.1 hls.2)
  by_cases hexact : u.length = 2
  · have ha0 : a = [] := List.eq_nil_of_length_eq_zero (by omega)
    subst ha0
    have hrun : enc_chunked_read_skip unset self = .ok (0,
        { self with buf_read_raw := none, buf_read_raw_offset := 0, buf_read_raw_len := 0
                    read_bytes_till_header := 0 }) := read_skip_all _
                      (by rw [h.size_sub_eq, hskip, hexact])
    refine ⟨_, _, hrun, .inl rfl, rfl, Later.refl _, ⟨[], [], ?_, hdec.holds, ?_⟩,
      fun _ _ _ => hended⟩
    · rw [hadv]
      by_cases hls : ls = []
      · subst hls
        exact .stray heof rfl Holds.null fun _ hfurther => ⟨rfl, by rw [hrest, hfurther]; rfl⟩
      · rw [if_neg hls] at heof
        exact .header hls heof rfl Holds.null hrest
    · rw [hadv]
      rfl
  · have hCR : u = [CR] := by
      obtain ⟨x, rfl⟩ := List.length_eq_one_iff.mp (by omega : u.length = 1)
      simpa [crlf] using (List.cons.inj ha).1.symm
    have hLF : LF ∉ u := by
      rw [hCR]
      decide
    have hrun : enc_chunked_read_skip unset self = .ok (0, self) := by
      rw [read_skip_wait _ (by rw [h.size_sub_eq]; omega), if_neg hnot_eof]
      exact header_waits hraw h hLF
    refine ⟨_, _, hrun, .inl rfl, rfl, Later.refl _, ⟨[], [], ?_, hdec.holds, ?_⟩,
      fun _ _ _ => hended⟩
    · rw [hadv]
      have hkept : Holds self.buf_read_raw self.buf_read_raw_offset self.buf_read_raw_len u := by
        rw [hraw]
        exact h
      exact .body heof (by simp) hskip hkept hu (by omega) (fun h0 => absurd rfl h0)
    · rw [hadv]
      rfl

theorem skip_body (hls : Closing ls) (hdec : Drained self) (hraw : self.buf_read_raw = some b)
    (h : Holds (some b) self.buf_read_raw_offset self.buf_read_raw_len u) (hne : u ≠ [])
    (heof : self.bytes_till_eof = if ls = [] then 2 else -1)
    (hskip : self.read_bytes_till_header = 2)
    (hroom : ∀ found, skip_search self = some found → Affords found)
    (hample : ample → Generous self.grants) (hu : u ++ rest = crlf ++ text further ls) :
    ∃ ret self', enc_chunked_read_skip unset self = .ok (ret, self') ∧
      Outcome ample further rest self ls (bodies ls) ret self' := by
  by_cases hle : u.length ≤ 2
  · exact skip_short hdec hraw h hne heof hskip hle hu
  -- There is more than the "\r\n".
  obtain ⟨v, rfl, hv⟩ := append_split hu (show crlf.length ≤ u.length from (Nat.not_le.mp hle).le)
  have hbehind : Holds (some b) (self.buf_read_raw_offset + 2) self.buf_read_raw_len v :=
    h.skip (k := 2) (by simp [crlf])
  let behind : httpp_encoding_t :=
    { self with buf_read_raw_offset := self.buf_read_raw_offset + 2, read_bytes_till_header := 0 }
  have hpast : enc_chunked_read_skip unset self = _ :=
    read_skip_past _ (by rw [h.size_sub_eq]; omega)
  rw [hskip] at hpast
  by_cases hlast : ls = []
  · subst hlast
    have hrun :
        enc_chunked_read_skip unset self = .ok (0, { behind with bytes_till_eof := 0 }) := by
      rw [hpast, if_neg (by rw [heof]; decide)]
    refine ⟨_, _, hrun, .inl rfl, rfl, Later.refl _, ⟨[], [], ?_, hdec.holds, rfl⟩, ?_⟩
    · have hkept :
          Holds self.buf_read_raw (self.buf_read_raw_offset + 2) self.buf_read_raw_len v := by
        rw [hraw]
        exact hbehind
      refine .eof rfl rfl hkept fun _ hfurther => ?_
      rw [hfurther] at hv
      exact List.append_eq_nil_iff.mp hv
    · rintro - rfl rfl
      have hnil : v = [] := by simpa [text] using hv
      exact absurd (by rw [hnil]; simp [crlf]) hle
  · rw [if_neg hlast] at heof
    have hrun : enc_chunked_read_skip unset self = enc_chunked_read_header unset behind := by
      rw [hpast, if_pos heof]
    have hsearch : skip_search self = some behind := by
      rw [skip_search_past (by rw [h.size_sub_eq]; omega), if_pos heof, hskip]
    obtain ⟨ret, self', hhead, hout⟩ :=
      header_turn hls hlast (show Drained behind from hdec) hraw hbehind heof rfl
        (hroom behind hsearch) hample hv
    exact ⟨ret, self', hrun.trans hhead, hout.result, hout.process, hout.later,
      hout.phase, hout.ended⟩

end Skip

end Encoding
