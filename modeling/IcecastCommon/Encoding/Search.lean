import IcecastCommon.Encoding.Stream

/-!
# Where a call looks for a header

A call finds at most one header. What it looks at, and what it finds there, is determined by the
state before the call and by the answer of the backend.
-/

namespace Encoding

open Lib

variable {σ : Type}

/-- The state in which `__enc_chunked_read` starts to look for a header after it skipped what is
left of the last chunk. `none` when it returns before. -/
def skip_search (self : httpp_encoding_t) : Option httpp_encoding_t :=
  let have_len := size_sub self.buf_read_raw_len self.buf_read_raw_offset
  if have_len = self.read_bytes_till_header then none
  else
    let self :=
      if have_len > self.read_bytes_till_header then
        { self with buf_read_raw_offset := self.buf_read_raw_offset + self.read_bytes_till_header,
                    read_bytes_till_header := 0 }
      else self
    let self :=
      { self with
        bytes_till_eof :=
          if self.bytes_till_eof ≠ -1 ∧ self.read_bytes_till_header = 0 then
            0
          else
            self.bytes_till_eof }
    if self.bytes_till_eof = 0 then none else some self

/-- The state in which a call of `__enc_chunked_read` looks for a header. -/
def chunked_search (self : httpp_encoding_t) (cb : ReadCallback σ) (userdata : σ) :
    Option httpp_encoding_t :=
  if self.read_bytes_till_header > 2 then none
  else
    let buflen := if self.bytes_till_eof ≠ -1 then self.bytes_till_eof.toNat else 1024
    let self :=
      if self.buf_read_raw = none then
        { self with buf_read_raw_offset := 0, buf_read_raw_len := 0 }
      else
        self
    let (bufptr, grants) := malloc self.grants .read_raw (self.buf_read_raw_len + buflen)
    let self := { self with grants := grants }
    let ((ret, data), _) := cb userdata buflen
    if ¬ bufptr ∨ ret < 1 then none
    else
      let room := data ++ List.replicate (buflen - data.length) 0
      skip_search
        { self with
          buf_read_raw :=
            some ((self.buf_read_raw.getD []).take self.buf_read_raw_len ++ room.take ret.toNat)
          buf_read_raw_len := self.buf_read_raw_len + ret.toNat }

/-- The state in which a call of `httpp_encoding_read` looks for a header. -/
def read_search (self : httpp_encoding_t) (len : Nat) (cb : ReadCallback σ) (userdata : σ) :
    Option httpp_encoding_t :=
  if len = 0 then none
  else match copy_decoded self len with
    | .error _ => none
    | .ok (ret, _, self) =>
      if ret = ssize len ∨ self.process = .identity then none else chunked_search self cb userdata

/-- The bytes that are searched in a state. -/
def window (h : httpp_encoding_t) : Bytes :=
  ((h.buf_read_raw.getD []).drop h.buf_read_raw_offset).take
    (h.buf_read_raw_len - h.buf_read_raw_offset)

/-- The index of the byte that is replaced by a NUL. -/
def Scan.cut (s : Scan) : Int :=
  if s.offset_extentions ≠ -1 then s.offset_extentions else s.offset_CR

/-- The index of the first byte of the body. -/
def body_offset (found : httpp_encoding_t) : Nat :=
  ((scan_loop {} found.buf_read_raw_offset (window found)).offset_LF + 1).toNat

/-- `sscanf` finds the number `size` in the header. -/
def Announces (found : httpp_encoding_t) (size : Nat) : Prop :=
  (scan_loop {} found.buf_read_raw_offset (window found)).offset_LF ≠ -1 ∧
  ∃ raw text,
    store (found.buf_read_raw.getD [])
      (scan_loop {} found.buf_read_raw_offset (window found)).cut 0 = .ok raw ∧
    cstring (raw.drop found.buf_read_raw_offset) = .ok text ∧ sscanf_llx text = some size

/-- The number of bytes that are already in the buffer behind the header. -/
def buffered (found : httpp_encoding_t) : Nat := found.buf_read_raw_len - body_offset found

/-- There is memory for the body that is announced, where it has to be taken out of the buffer. -/
def Affords (found : httpp_encoding_t) : Prop :=
  ∀ size, Announces found size → 0 < size → size < buffered found →
    found.grants .read_decoded 0 size = true

/-! ## With memory -/

theorem skip_search_grants {self found : httpp_encoding_t} (h : skip_search self = some found) :
    found.grants = self.grants := by
  unfold skip_search at h
  dsimp only at h
  split_ifs at h
  all_goals
    rw [← Option.some.inj h]

theorem chunked_search_later {self found : httpp_encoding_t} {cb : ReadCallback σ} {userdata : σ}
    (h : chunked_search self cb userdata = some found) : Later self.grants found.grants := by
  unfold chunked_search at h
  dsimp only at h
  split_ifs at h
  all_goals
    rw [skip_search_grants h]
    -- The size does not matter for what comes next.
    exact malloc_later self.grants .read_raw 0

theorem copy_decoded_grants {self self' : httpp_encoding_t} {len : Nat} {ret : Int} {data : Bytes}
    (h : copy_decoded self len = .ok (ret, data, self')) : self'.grants = self.grants := by
  unfold copy_decoded at h
  obtain ⟨r, -, hr⟩ := bind_eq_ok.mp h
  cases hr
  rfl

theorem read_search_later {self found : httpp_encoding_t} {len : Nat} {cb : ReadCallback σ}
    {userdata : σ} (h : read_search self len cb userdata = some found) :
    Later self.grants found.grants := by
  unfold read_search at h
  split_ifs at h
  cases hcopy : copy_decoded self len with
  | error e =>
    rw [hcopy] at h
    cases h
  | ok r =>
    obtain ⟨ret, data, rest⟩ := r
    rw [hcopy] at h
    simp only at h
    split_ifs at h
    rw [← copy_decoded_grants hcopy]
    exact chunked_search_later h

theorem Generous.affords {self found : httpp_encoding_t} (hgen : Generous self.grants)
    (h : Later self.grants found.grants) : Affords found :=
  fun size _ _ _ => hgen.later h .read_decoded 0 size

end Encoding
