import IcecastCommon.Lib.Hex

/-!
# The code of `httpp/encoding.c`

The functions keep the names of the source. The loops of `__enc_chunked_read` and its steps
after the callback are functions of their own, in the order of the source.
-/

namespace Encoding

open Lib

/-! ## Records -/

/-- The calls of `malloc`, by what they are for. -/
inductive Site where
  | item | key | value | encoding | read_raw | read_decoded | extensions | write_encoded
deriving DecidableEq, Repr

/-- The answers of the next calls of `malloc` at each site. They may depend on the size. -/
abbrev Grants := Site → Nat → Nat → Bool

def malloc (grants : Grants) (site : Site) (size : Nat) : Bool × Grants :=
  (grants site 0 size, Function.update grants site fun n => grants site (n + 1))

/-- One item. The list of items stands for the `next` pointers. -/
structure httpp_meta_t where
  key : Option Bytes
  value : Option Bytes
  value_len : Nat
deriving DecidableEq, Repr

/-- The handlers that `process_read` and `process_write` point to. -/
inductive Process where
  | identity
  | chunked
deriving DecidableEq, Repr

structure httpp_encoding_t where
  process : Process
  meta_read : List httpp_meta_t
  meta_write : List httpp_meta_t
  buf_read_raw : Option Bytes
  buf_read_raw_offset : Nat
  buf_read_raw_len : Nat
  buf_read_decoded : Option Bytes
  buf_read_decoded_offset : Nat
  buf_read_decoded_len : Nat
  buf_write_encoded : Option Bytes
  buf_write_encoded_offset : Nat
  buf_write_encoded_len : Nat
  bytes_till_eof : Int
  read_bytes_till_header : Nat
  /-- What the allocator will answer. -/
  grants : Grants

/-- A backend that is asked for a number of bytes gives a result and what is in the buffer then.
Behind the bytes that the result counts, it is whatever the backend or the allocator left there. -/
abbrev ReadCallback (σ : Type) := σ → Nat → (Int × Bytes) × σ

abbrev WriteCallback (σ : Type) := σ → Bytes → Int × σ

/-- A call of the callback, which must not store more than it was asked for. -/
def receive {σ : Type} (cb : ReadCallback σ) (userdata : σ) (n : Nat) : C ((Int × Bytes) × σ) :=
  if (cb userdata n).1.2.length ≤ n then return cb userdata n else throw .bounds

def deref {α : Type} : Option α → C α
  | some a => return a
  | none => throw .null

/-! ## Buffers -/

/-- The result, the bytes it copied, and the new `*src`, `*boffset` and `*blen`. -/
def copy_buffer (src : Option Bytes) (boffset blen len : Nat) :
    C (Int × Bytes × Option Bytes × Nat × Nat) := do
  if len = 0 then return (0, [], src, boffset, blen)
  match src with
  | none => return (-1, [], src, boffset, blen)
  | some block =>
    let have_len := size_sub blen boffset
    let todo := if len < have_len then len else have_len
    let p ← slice block boffset todo
    let boffset := boffset + todo
    if boffset = blen then return (todo, p, none, 0, 0) else return (todo, p, src, boffset, blen)

def flush_output {σ : Type} (self : httpp_encoding_t) (cb : WriteCallback σ) (userdata : σ) :
    C (httpp_encoding_t × σ) := do
  match self.buf_write_encoded with
  | none => return (self, userdata)
  | some block =>
    let data ← slice block self.buf_write_encoded_offset
      (size_sub self.buf_write_encoded_len self.buf_write_encoded_offset)
    let (ret, userdata) := cb userdata data
    if ret > 0 then
      let offset := self.buf_write_encoded_offset + ret.toNat
      if offset = self.buf_write_encoded_len then
        return ({ self with buf_write_encoded := none, buf_write_encoded_offset := 0,
                            buf_write_encoded_len := 0 }, userdata)
      else return ({ self with buf_write_encoded_offset := offset }, userdata)
    else return (self, userdata)

/-! ## Meta data -/

def httpp_encoding_meta_new (grants : Grants) (key value : Option CString) :
    Option httpp_meta_t × Grants :=
  let strdup (grants : Grants) (site : Site) : Option CString → Bool × Grants
    | none => (true, grants)
    | some s => malloc grants site (s.bytes.length + 1)
  match malloc grants .item 32 with
  | (false, grants) => (none, grants)
  | (true, grants) => match strdup grants .key key with
    | (false, grants) => (none, grants)
    | (true, grants) => match strdup grants .value value with
      | (false, grants) => (none, grants)
      | (true, grants) =>
        (some { key := key.map CString.block, value := value.map CString.block
                value_len := (value.map (·.bytes.length)).getD 0 }, grants)

def httpp_encoding_meta_append (dst next : List httpp_meta_t) : List httpp_meta_t := dst ++ next

def httpp_encoding_append_meta (self : httpp_encoding_t) (items : List httpp_meta_t) :
    httpp_encoding_t :=
  { self with meta_write := httpp_encoding_meta_append self.meta_write items }

/-- The items, which the caller now owns. -/
def httpp_encoding_get_meta (self : httpp_encoding_t) : List httpp_meta_t × httpp_encoding_t :=
  (self.meta_read, { self with meta_read := [] })

/-! ## The identity encoding -/

variable {σ : Type}

def enc_identity_read (self : httpp_encoding_t) (len : Nat) (cb : Option (ReadCallback σ))
    (userdata : σ) : C (Int × Bytes × httpp_encoding_t × σ) := do
  match cb with
  | none => return (-1, [], self, userdata)
  | some cb =>
    let ((ret, data), userdata) ← receive cb userdata len
    return (ret, data, self, userdata)

/-- What a callback reads of `len` bytes at `buf`. -/
def bytes_at (buf : Option Bytes) (len : Nat) : C Bytes :=
  match buf with
  | some block => slice block 0 len
  | none => if len = 0 then return [] else throw .null

def enc_identity_write (self : httpp_encoding_t) (buf : Option Bytes) (len : Nat)
    (cb : WriteCallback σ) (userdata : σ) : C (Int × httpp_encoding_t × σ) := do
  let (ret, userdata) := cb userdata (← bytes_at buf len)
  return (ret, self, userdata)

/-! ## Reading chunk extensions -/

/-- What a byte does inside a quoted string. After a backslash it takes two quotes to leave. -/
def step_quote (in_quote : Nat) (c : Byte) : Nat :=
  if c = BACKSLASH then 2 else if c = QUOTE then in_quote - 1 else in_quote

/-- The loop for `key_len`, with `len` bytes to go at `p`. -/
def key_loop (raw : Bytes) (p : Nat) : Nat → C Nat
  | 0 => return 0
  | len + 1 => do
    if (← read raw p) = ch '=' then return 0
    return (← key_loop raw (p + 1) len) + 1

/-- The loop for `value_len`. -/
def value_loop (raw : Bytes) (p in_quote : Nat) : Nat → C Nat
  | 0 => return 0
  | len + 1 => do
    let c ← read raw p
    if in_quote ≠ 0 then
      if step_quote in_quote c ≠ 0 then
        return (← value_loop raw (p + 1) (step_quote in_quote c) len) + 1
      return 1
    if c = QUOTE then return (← value_loop raw (p + 1) 1 len) + 1
    if c = ch ';' then return 0
    return (← value_loop raw (p + 1) 0 len) + 1

/-- `value[value_decoded_len++] = b`, where `size` bytes are allocated. -/
def push (value : Bytes) (size : Nat) (b : Byte) : C Bytes :=
  if value.length < size then return value ++ [b] else throw .bounds

/-- The loop that decodes a value. It starts at `c`, and `p` is already behind the value. -/
def decode_loop (raw : Bytes) (p size : Nat) (c in_quote : Nat) (value : Bytes) : Nat → C Bytes
  | 0 => return value
  | value_len + 1 => do
    let b ← read raw c
    if in_quote ≠ 0 then
      let value ← if b = BACKSLASH then pure value
        else if b = QUOTE then (if in_quote - 1 ≠ 0 then push value size QUOTE else pure value)
        else push value size b
      if step_quote in_quote b ≠ 0 then
        decode_loop raw p size (c + 1) (step_quote in_quote b) value value_len
      else return value
    else if b = QUOTE then decode_loop raw p size (c + 1) 1 value value_len
    else if (← read raw (p + (value_len + 1))) = ch ';' then return value
    else decode_loop raw p size (c + 1) 0 (← push value size b) value_len

def add_meta_read (self : httpp_encoding_t) (item : httpp_meta_t) : httpp_encoding_t :=
  { self with meta_read := httpp_encoding_meta_append self.meta_read [item] }

/-- The loop over the extensions of a header. Each round takes at least its `;`. -/
def extentions_loop (raw : Bytes) : Nat → httpp_encoding_t → Nat → Nat → C httpp_encoding_t
  | 0, _, _, _ => throw .endless
  | fuel + 1, self, p, len => do
    if len = 0 then return self
    if (← read raw p) ≠ ch ';' then return self
    let p := p + 1
    let len := len - 1
    match httpp_encoding_meta_new self.grants none none with
    | (none, _) => throw .null
    | (some item, grants) =>
      let key_len ← key_loop raw p len
      let (bufptr, grants) := malloc grants .key (key_len + 1)
      let self := { self with grants := grants }
      if ¬ bufptr then return add_meta_read self item
      let key ← slice raw p key_len
      let item := { item with key := some (key ++ [0]) }
      let p := p + key_len
      let len := len - key_len
      if len = 0 then return add_meta_read self item
      if (← read raw p) ≠ ch '=' then extentions_loop raw fuel (add_meta_read self item) p len
      else
        let p := p + 1
        let len := len - 1
        if len = 0 then return add_meta_read self item
        let value_len ← value_loop raw p 0 len
        let (bufptr, grants) := malloc grants .value (value_len + 1)
        let self := { self with grants := grants }
        if ¬ bufptr then return add_meta_read self item
        let value ← decode_loop raw (p + value_len) (value_len + 1) p 0 [] value_len
        let block ← push value (value_len + 1) 0
        let item := { item with value := some block, value_len := value.length }
        extentions_loop raw fuel (add_meta_read self item) (p + value_len) (len - value_len)

def enc_chunked_read_extentions (self : httpp_encoding_t) (raw : Bytes) (p len : Nat) :
    C httpp_encoding_t :=
  extentions_loop raw (len + 1) self p len

/-! ## Reading chunks -/

/-- What the search for the end of a header knows. -/
structure Scan where
  in_quote : Nat := 0
  offset_extentions : Int := -1
  offset_CR : Int := -1
  offset_LF : Int := -1
deriving DecidableEq, Repr

/-- The search for the end of a header, at index `i` of the buffer. -/
def scan_loop (s : Scan) (i : Nat) : Bytes → Scan
  | [] => s
  | c :: rest =>
    if s.in_quote ≠ 0 then scan_loop { s with in_quote := step_quote s.in_quote c } (i + 1) rest
    else if c = QUOTE then scan_loop { s with in_quote := 1 } (i + 1) rest
    else if c = ch ';' ∧ s.offset_extentions = -1 then
      scan_loop { s with offset_extentions := i } (i + 1) rest
    else if c = CR then scan_loop { s with offset_CR := i } (i + 1) rest
    else if c = LF ∧ s.offset_CR = (i : Int) - 1 then { s with offset_LF := i }
    else scan_loop s (i + 1) rest

/-- From `if (!bodylen)` on. -/
def enc_chunked_read_body (self : httpp_encoding_t) (bodylen : Nat) :
    C (Int × httpp_encoding_t) := do
  let self := { self with bytes_till_eof := if bodylen = 0 then 2 else self.bytes_till_eof }
  if self.buf_read_raw_offset = self.buf_read_raw_len then
    return (0, { self with buf_read_raw := none, buf_read_raw_offset := 0, buf_read_raw_len := 0,
                           read_bytes_till_header := (bodylen + 2) % 2 ^ 64 })
  let have_len := size_sub self.buf_read_raw_len self.buf_read_raw_offset
  if have_len ≤ bodylen then
    return (0, { self with buf_read_decoded := self.buf_read_raw,
                           buf_read_decoded_offset := self.buf_read_raw_offset,
                           buf_read_decoded_len := self.buf_read_raw_len,
                           buf_read_raw := none, buf_read_raw_offset := 0, buf_read_raw_len := 0,
                           read_bytes_till_header := size_sub ((bodylen + 2) % 2 ^ 64) have_len })
  let (bufptr, grants) := malloc self.grants .read_decoded bodylen
  let self := { self with grants := grants }
  if ¬ bufptr then return (-1, { self with buf_read_decoded := none })
  let body ← slice (← deref self.buf_read_raw) self.buf_read_raw_offset bodylen
  let self :=
    { self with
      buf_read_decoded := some body, buf_read_decoded_offset := 0, buf_read_decoded_len := bodylen,
      buf_read_raw_offset := self.buf_read_raw_offset + bodylen, read_bytes_till_header := 2 }
  if size_sub self.buf_read_raw_len self.buf_read_raw_offset < 2 then return (0, self)
  let self :=
    { self with buf_read_raw_offset := self.buf_read_raw_offset + 2, read_bytes_till_header := 0,
                bytes_till_eof := if self.bytes_till_eof ≠ -1 then 0 else self.bytes_till_eof }
  if size_sub self.buf_read_raw_len self.buf_read_raw_offset = 0 then
    return (0, { self with buf_read_raw := none, buf_read_raw_len := 0, buf_read_raw_offset := 0 })
  return (0, self)

/-- From the search for the header on. The block of the raw buffer ends with the bytes `unset`,
which are not counted: the parser of the extensions may look at them. -/
def enc_chunked_read_header (unset : Bytes) (self : httpp_encoding_t) :
    C (Int × httpp_encoding_t) := do
  let raw ← deref self.buf_read_raw
  let line ← slice raw self.buf_read_raw_offset (self.buf_read_raw_len - self.buf_read_raw_offset)
  let s := scan_loop {} self.buf_read_raw_offset line
  if s.offset_LF = -1 then return (0, self)
  let self ←
    if s.offset_extentions = -1 then pure self
    else
      enc_chunked_read_extentions self (raw ++ unset) s.offset_extentions.toNat
        (s.offset_CR - s.offset_extentions).toNat
  let raw ← store raw (if s.offset_extentions ≠ -1 then s.offset_extentions else s.offset_CR) 0
  let self := { self with buf_read_raw := some raw }
  match sscanf_llx (← cstring (raw.drop self.buf_read_raw_offset)) with
  | none => return (-1, self)
  | some bodylen =>
    enc_chunked_read_body { self with buf_read_raw_offset := (s.offset_LF + 1).toNat } bodylen

/-- From the check of `read_bytes_till_header` on, with some bytes in the buffer. -/
def enc_chunked_read_skip (unset : Bytes) (self : httpp_encoding_t) :
    C (Int × httpp_encoding_t) := do
  let have_len := size_sub self.buf_read_raw_len self.buf_read_raw_offset
  if have_len = self.read_bytes_till_header then
    return (0, { self with buf_read_raw := none, buf_read_raw_offset := 0, buf_read_raw_len := 0,
                           read_bytes_till_header := 0 })
  let self :=
    if have_len > self.read_bytes_till_header then
      { self with buf_read_raw_offset := self.buf_read_raw_offset + self.read_bytes_till_header,
                  read_bytes_till_header := 0 }
    else self
  let self :=
    { self with
      bytes_till_eof :=
        if self.bytes_till_eof ≠ -1 ∧ self.read_bytes_till_header = 0 then
          0
        else
          self.bytes_till_eof }
  if self.bytes_till_eof = 0 then return (0, self)
  enc_chunked_read_header unset self

def enc_chunked_read (self : httpp_encoding_t) (len : Nat) (cb : Option (ReadCallback σ))
    (userdata : σ) : C (Int × Bytes × httpp_encoding_t × σ) := do
  match cb with
  | none => return (-1, [], self, userdata)
  | some cb =>
    if self.read_bytes_till_header > 2 then
      let todo :=
        if len > self.read_bytes_till_header - 2 then self.read_bytes_till_header - 2 else len
      let ((ret, data), userdata) ← receive cb userdata todo
      if ret < 1 then return (ret, data, self, userdata)
      return (ret, data,
        { self with read_bytes_till_header := size_sub self.read_bytes_till_header ret.toNat },
        userdata)
    else
      let buflen := if self.bytes_till_eof ≠ -1 then self.bytes_till_eof.toNat else 1024
      let self :=
        if self.buf_read_raw = none then
          { self with buf_read_raw_offset := 0, buf_read_raw_len := 0 }
        else self
      let (bufptr, grants) := malloc self.grants .read_raw (self.buf_read_raw_len + buflen)
      let self := { self with grants := grants }
      if ¬ bufptr then return (-1, [], self, userdata)
      let raw ← slice (self.buf_read_raw.getD []) 0 self.buf_read_raw_len
      let ((ret, data), userdata) ← receive cb userdata buflen
      if ret < 1 then
        return (ret, [],
          { self with buf_read_raw := if self.buf_read_raw_len = 0 then none else some raw },
          userdata)
      let room := data ++ List.replicate (buflen - data.length) 0
      let (ret, self) ← enc_chunked_read_skip (room.drop ret.toNat)
        { self with
          buf_read_raw := some (raw ++ room.take ret.toNat),
          buf_read_raw_len := self.buf_read_raw_len + ret.toNat }
      return (ret, [], self, userdata)

/-! ## Writing chunks -/

/-- An item that the writer passes over. -/
def left_out (cur : httpp_meta_t) : Bool := cur.key = none ∨ (cur.value_len ≠ 0 ∧ cur.value = none)

/-- How many bytes the value takes with its escapes. -/
def enc_chunked_write_extensions_valuelen (cur : httpp_meta_t) : C Nat := do
  match cur.value with
  | none => return 0
  | some value =>
    if cur.value_len = 0 then return 0
    return cur.value_len + ((← slice value 0 cur.value_len).count QUOTE)

/-- The room for one item: `;` and `=` and two quotes, and the texts. -/
def extension_room (cur : httpp_meta_t) : C Nat := do
  if left_out cur then return 0
  return 4 + (← strlen (← deref cur.key)) + (← enc_chunked_write_extensions_valuelen cur)

def escape (value : Bytes) : Bytes :=
  value.flatMap fun c => if c = QUOTE then [BACKSLASH, c] else [c]

/-- The bytes that the second loop stores for one item. -/
def extension_text (cur : httpp_meta_t) : C Bytes := do
  if left_out cur then return []
  let key ← cstring (← deref cur.key)
  if cur.value_len = 0 then return ch ';' :: key
  let value ← slice (← deref cur.value) 0 cur.value_len
  return ch ';' :: key ++ [ch '=', QUOTE] ++ escape value ++ [QUOTE]

/-- `none` for NULL. The metadata is consumed unless there is no memory. -/
def enc_chunked_write_extensions (self : httpp_encoding_t) :
    C (Option Bytes × httpp_encoding_t) := do
  if self.meta_write = [] then return (none, self)
  let buflen := 1 + (← self.meta_write.mapM extension_room).sum
  let (bufptr, grants) := malloc self.grants .extensions buflen
  let self := { self with grants := grants }
  if ¬ bufptr then return (none, self)
  let buf := (← self.meta_write.mapM extension_text).flatten ++ [0]
  if buflen < buf.length then throw .bounds
  return (some buf, { self with meta_write := [] })

def httpp_encoding_pending (self : httpp_encoding_t) : Int :=
  if self.buf_write_encoded = none then 0
  else ssize (size_sub self.buf_write_encoded_len self.buf_write_encoded_offset)

/-- Copying no bytes from a null pointer, which the source does and C leaves undefined, stores
nothing here. `enc_chunked_write_stores` faults there. -/
def enc_chunked_write (self : httpp_encoding_t) (buf : Option Bytes) (len : Nat) :
    C (Int × httpp_encoding_t) := do
  let len := if buf = none then 0 else len
  if httpp_encoding_pending self > 0 then return (0, self)
  let len := if len > 1048576 then 1048576 else len
  let encoded_length := hex len
  let (extensions, self) ← enc_chunked_write_extensions self
  let extensions ← match extensions with
    | some block => cstring block
    | none => pure []
  let header_length := encoded_length.length + extensions.length + 2
  let total_chunk_size := header_length + len + 2 + if buf = none then 2 else 0
  let (bufptr, grants) := malloc self.grants .write_encoded total_chunk_size
  let self := { self with grants := grants }
  if ¬ bufptr then return (-1, { self with buf_write_encoded := none })
  let body ← bytes_at buf len
  return (len,
    { self with
      buf_write_encoded := some
        (encoded_length ++ extensions ++ crlf ++ body ++ if buf = none then crlf ++ crlf else crlf)
      buf_write_encoded_offset := 0
      buf_write_encoded_len := total_chunk_size })

/-! ## The interface -/

def HTTPP_ENCODING_IDENTITY : Bytes := ascii "identity"
def HTTPP_ENCODING_CHUNKED : Bytes := ascii "chunked"

/-- `none` when there is no memory or no such encoding. -/
def httpp_encoding_new (grants : Grants) (encoding : CString) : Option httpp_encoding_t :=
  let make (process : Process) (grants : Grants) : httpp_encoding_t :=
    { process, grants, meta_read := [], meta_write := [], bytes_till_eof := -1,
      read_bytes_till_header := 0
      buf_read_raw := none, buf_read_raw_offset := 0, buf_read_raw_len := 0
      buf_read_decoded := none, buf_read_decoded_offset := 0, buf_read_decoded_len := 0
      buf_write_encoded := none, buf_write_encoded_offset := 0, buf_write_encoded_len := 0 }
  match malloc grants .encoding 152 with
  | (false, _) => none
  | (true, grants) =>
    if strcasecmp encoding.bytes HTTPP_ENCODING_IDENTITY = 0 then some (make .identity grants)
    else if strcasecmp encoding.bytes HTTPP_ENCODING_CHUNKED = 0 then some (make .chunked grants)
    else none

def process_read (self : httpp_encoding_t) (len : Nat) (cb : Option (ReadCallback σ))
    (userdata : σ) : C (Int × Bytes × httpp_encoding_t × σ) :=
  match self.process with
  | .identity => enc_identity_read self len cb userdata
  | .chunked => enc_chunked_read self len cb userdata

/-- `__copy_buffer` out of the decoded bytes. -/
def copy_decoded (self : httpp_encoding_t) (len : Nat) : C (Int × Bytes × httpp_encoding_t) := do
  let (ret, data, src, boffset, blen) ←
    copy_buffer self.buf_read_decoded self.buf_read_decoded_offset self.buf_read_decoded_len len
  return (ret, data, { self with buf_read_decoded := src, buf_read_decoded_offset := boffset,
                                 buf_read_decoded_len := blen })

/-- The result with the bytes that are in `buf`. -/
def httpp_encoding_read (self : httpp_encoding_t) (len : Nat) (cb : Option (ReadCallback σ))
    (userdata : σ) : C (Int × Bytes × httpp_encoding_t × σ) := do
  if len = 0 then return (0, [], self, userdata)
  let (ret, copied, self) ← copy_decoded self len
  if ret = ssize len then return (ret, copied, self, userdata)
  let done := if ret > 0 then ret else 0
  let len := if ret > 0 then size_sub len ret.toNat else len
  let (ret, data, self, userdata) ← process_read self len cb userdata
  if ret = -1 ∧ done ≠ 0 then return (done, copied, self, userdata)
  if ret = -1 then return (-1, copied, self, userdata)
  let done := done + ret
  let buf := (copied ++ data).take done.toNat
  let len := ((len : Int) - ret) % 2 ^ 64
  if len = 0 then return (done, buf, self, userdata)
  let (ret, copied, self) ← copy_decoded self len.toNat
  -- A result below -1 has moved `buf` back.
  if ret > 0 ∧ done < 0 then throw .bounds
  if ret > 0 then return (done + ret, buf ++ copied, self, userdata)
  return (done, buf, self, userdata)

/-- `cb` asks the backend. -/
def httpp_encoding_eof (self : httpp_encoding_t) (cb : Option (σ → Int)) (userdata : σ) : Int :=
  if size_sub self.buf_read_decoded_len self.buf_read_decoded_offset ≠ 0 then 0
  else if self.bytes_till_eof = 0 then 1
  else match cb with
    | some cb => cb userdata
    | none => 0

def process_write (self : httpp_encoding_t) (buf : Option Bytes) (len : Nat) (cb : WriteCallback σ)
    (userdata : σ) : C (Int × httpp_encoding_t × σ) := do
  match self.process with
  | .identity => enc_identity_write self buf len cb userdata
  | .chunked =>
    let (ret, self) ← enc_chunked_write self buf len
    return (ret, self, userdata)

def httpp_encoding_write (self : httpp_encoding_t) (buf : Option Bytes) (len : Nat)
    (cb : Option (WriteCallback σ)) (userdata : σ) : C (Int × httpp_encoding_t × σ) := do
  match cb with
  | none => return (-1, self, userdata)
  | some cb =>
    let (self, userdata) ← flush_output self cb userdata
    let (ret, self, userdata) ← process_write self buf len cb userdata
    let (self, userdata) ← flush_output self cb userdata
    return (ret, self, userdata)

end Encoding
