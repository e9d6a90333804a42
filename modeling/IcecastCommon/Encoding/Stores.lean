import IcecastCommon.Encoding.Write
import IcecastCommon.Lib.Block

/-!
# The stores of the chunk writer

`__enc_chunked_write_extensions` and `__enc_chunked_write` once more, with every byte that they
store into the blocks they allocate. They leave what the functions of the same names leave.
-/

namespace Encoding

open Lib

/-! ## The code -/

/-- The loop over a value, from `p` on. The buffer and the new `p`. -/
def value_stores (buf : Block) (p : Nat) : Bytes → C (Block × Nat)
  | [] => return (buf, p)
  | c :: value => do
    if c = QUOTE then value_stores (← (← buf.put p BACKSLASH).put (p + 1) c) (p + 2) value
    else value_stores (← buf.put p c) (p + 1) value

/-- The second loop over the items. -/
def meta_stores (buf : Block) (p : Nat) : List httpp_meta_t → C (Block × Nat)
  | [] => return (buf, p)
  | cur :: items => do
    if left_out cur then meta_stores buf p items
    else
      let buf ← buf.put p (ch ';')
      let key ← cstring (← deref cur.key)
      let buf ← buf.copy (p + 1) key
      let p := p + 1 + key.length
      if cur.value_len = 0 then meta_stores buf p items
      else
        let buf ← buf.put p (ch '=')
        let buf ← buf.put (p + 1) QUOTE
        let (buf, p) ← value_stores buf (p + 2) (← slice (← deref cur.value) 0 cur.value_len)
        meta_stores (← buf.put p QUOTE) (p + 1) items

/-- The sum of the first loop. -/
def extensions_buflen (items : List httpp_meta_t) : C Nat :=
  return 1 + (← items.mapM extension_room).sum

/-- `__enc_chunked_write_extensions` with its stores. -/
def enc_chunked_write_extensions_stores (self : httpp_encoding_t) :
    C (Option Block × httpp_encoding_t) := do
  if self.meta_write = [] then return (none, self)
  let buflen ← extensions_buflen self.meta_write
  let (bufptr, grants) := malloc self.grants .extensions buflen
  let self := { self with grants := grants }
  if ¬ bufptr then return (none, self)
  let (buf, p) ← meta_stores (.filled [] buflen) 0 self.meta_write
  return (some (← buf.put p 0), { self with meta_write := [] })

/-- The stores into `buf_write_encoded`. Copying from a null pointer is undefined, for
no bytes too. -/
def chunk_stores (total_chunk_size header_length : Nat) (encoded_length extensions : Bytes)
    (buf : Option Bytes) (len : Nat) : C Block := do
  let block ← (Block.filled [] total_chunk_size).print total_chunk_size
    (encoded_length ++ extensions ++ crlf)
  let block ← block.copy header_length (← slice (← deref buf) 0 len)
  block.copy (header_length + len) ((crlf ++ crlf).take (if buf = none then 4 else 2))

/-- From the length of the header on. The second result is the new `buf_write_encoded`. -/
def queue_stores (self : httpp_encoding_t) (encoded_length extensions : Bytes) (buf : Option Bytes)
    (len : Nat) : C (Int × Option Block × httpp_encoding_t) := do
  let header_length := encoded_length.length + extensions.length + 2
  let total_chunk_size := header_length + len + 2 + if buf = none then 2 else 0
  let (bufptr, grants) := malloc self.grants .write_encoded total_chunk_size
  let self := { self with grants := grants }
  if ¬ bufptr then return (-1, none, { self with buf_write_encoded := none })
  let block ← chunk_stores total_chunk_size header_length encoded_length extensions buf len
  return (len, some block,
    { self with
      buf_write_encoded := block.mapM id,
      buf_write_encoded_offset := 0,
      buf_write_encoded_len := total_chunk_size })

/-- `__enc_chunked_write` with its stores. -/
def enc_chunked_write_stores (self : httpp_encoding_t) (buf : Option Bytes) (len : Nat) :
    C (Int × Option Block × httpp_encoding_t) := do
  let len := if buf = none then 0 else len
  if httpp_encoding_pending self > 0 then return (0, none, self)
  let len := if len > 1048576 then 1048576 else len
  let encoded_length ← (Block.filled [] 32).print 32 (hex len) >>= Block.string
  let (extensions, self) ← enc_chunked_write_extensions_stores self
  match extensions with
  | some block => queue_stores self encoded_length (← block.string) buf len
  | none => queue_stores self encoded_length [] buf len

/-! ## One item -/

/-- An item as C has it: the key is a string, and the value has its bytes. Either may be NULL. -/
structure Proper (item : httpp_meta_t) : Prop where
  key : ∀ block, item.key = some block → 0 ∈ block
  value : ∀ block, item.value = some block → item.value_len ≤ block.length

def key_string (item : httpp_meta_t) : Bytes := (item.key.getD []).takeWhile (· != 0)

def value_taken (item : httpp_meta_t) : Bytes := (item.value.getD []).take item.value_len

/-- The bytes that are stored for an item. -/
def item_text (item : httpp_meta_t) : Bytes :=
  if left_out item then []
  else if item.value_len = 0 then ch ';' :: key_string item
  else ch ';' :: key_string item ++ [ch '=', QUOTE] ++ escape (value_taken item) ++ [QUOTE]

/-- The bytes that are counted for it. -/
def item_room (item : httpp_meta_t) : Nat :=
  if left_out item then 0
  else if item.value_len = 0 then 4 + (key_string item).length
  else 4 + (key_string item).length + (item.value_len + (value_taken item).count QUOTE)

open Block

theorem value_stores_filled (value : Bytes) : ∀ (text : Bytes) (n : Nat),
    value_stores (filled text ((escape value).length + n)) text.length value =
      .ok (filled (text ++ escape value) n, (text ++ escape value).length) := by
  induction value with
  | nil =>
    intro text n
    have hnil : escape [] = [] := rfl
    rw [hnil, List.append_nil, List.length_nil, Nat.zero_add]
    rfl
  | cons c value ih =>
    intro text n
    rw [escape_cons, value_stores]
    by_cases hc : c = QUOTE
    · have hroom :
          ([BACKSLASH, c] ++ escape value).length + n = (escape value).length + n + 1 + 1 := by
        simp
        omega
      have hput :
        put (filled (text ++ [BACKSLASH]) ((escape value).length + n + 1)) (text.length + 1) c =
          .ok (filled (text ++ [BACKSLASH, c]) ((escape value).length + n)) := by
        have h := put_filled (text ++ [BACKSLASH]) c ((escape value).length + n)
        rwa [List.length_append, List.append_assoc] at h
      have hrest := ih (text ++ [BACKSLASH, c]) n
      rw [List.length_append] at hrest
      rw [if_pos hc, if_pos hc, hroom, put_filled, ok_bind, hput, ok_bind, ← List.append_assoc]
      exact hrest
    · have hroom : ([c] ++ escape value).length + n = (escape value).length + n + 1 := by
        simp
        omega
      have hrest := ih (text ++ [c]) n
      rw [List.length_append] at hrest
      rw [if_neg hc, if_neg hc, hroom, put_filled, ok_bind, ← List.append_assoc]
      exact hrest

/-- What both loops make of an item: the room it is given, and the text that is stored for it. -/
structure Spelled (item : httpp_meta_t) (room : Nat) (text : Bytes) : Prop where
  measured : extension_room item = .ok room
  written : extension_text item = .ok text
  fits : text.length ≤ room
  stored : ∀ (before : Bytes) (n : Nat) (items : List httpp_meta_t),
    meta_stores (filled before (text.length + n)) before.length (item :: items) =
      meta_stores (filled (before ++ text) n) (before ++ text).length items

theorem spelled_left_out {item : httpp_meta_t} (h : left_out item = true) : Spelled item 0 [] := by
  refine ⟨?_, ?_, Nat.le_refl 0, fun before n items => ?_⟩
  · rw [extension_room, if_pos h]
    rfl
  · rw [extension_text, if_pos h]
    rfl
  · rw [meta_stores, if_pos h, List.append_nil, List.length_nil, Nat.zero_add]

theorem spelled_key {item : httpp_meta_t} {block key : Bytes} (hkey : item.key = some block)
    (hstring : cstring block = .ok key) (hzero : item.value_len = 0) :
    Spelled item (4 + key.length) (ch ';' :: key) := by
  have hkept : ¬ left_out item = true := by simp [left_out, hkey, hzero]
  have hvalue : enc_chunked_write_extensions_valuelen item = .ok 0 := by
    unfold enc_chunked_write_extensions_valuelen
    split
    · rfl
    · rw [if_pos hzero]
      rfl
  refine ⟨?_, ?_, ?_, fun before n items => ?_⟩
  · simp only [extension_room, if_neg hkept, hkey, deref, pure_eq_ok, ok_bind, strlen, hstring,
      hvalue, Nat.add_zero]
  · simp only [extension_text, if_neg hkept, hkey, deref, pure_eq_ok, ok_bind, hstring,
      if_pos hzero]
  · simp
  · have hroom : (ch ';' :: key).length + n = key.length + n + 1 := by
      simp
      omega
    have hcopy : copy (filled (before ++ [ch ';']) (key.length + n)) (before.length + 1) key =
        .ok (filled (before ++ ch ';' :: key) n) := by
      have h := copy_filled (before ++ [ch ';']) key n
      rwa [List.length_append, List.append_assoc] at h
    have hp : before.length + 1 + key.length = (before ++ ch ';' :: key).length := by
      simp
      omega
    simp only [meta_stores, if_neg hkept, hkey, deref, pure_eq_ok, ok_bind, hstring, if_pos hzero,
      hroom, put_filled, hcopy, hp]

theorem spelled_value {item : httpp_meta_t} {block key value : Bytes} (hkey : item.key = some block)
    (hstring : cstring block = .ok key) (hvalue : item.value = some value)
    (hlen : item.value_len ≠ 0) (hle : item.value_len ≤ value.length) :
    let taken := value.take item.value_len
    Spelled item (4 + key.length + (item.value_len + taken.count QUOTE))
      (ch ';' :: key ++ [ch '=', QUOTE] ++ escape taken ++ [QUOTE]) := by
  intro taken
  have hkept : ¬ left_out item = true := by simp [left_out, hkey, hvalue]
  have hslice : slice value 0 item.value_len = .ok taken := slice_front hle
  have htaken : taken.length = item.value_len := List.length_take_of_le hle
  refine ⟨?_, ?_, ?_, fun before n items => ?_⟩
  · simp only [extension_room, if_neg hkept, hkey, deref, pure_eq_ok, ok_bind, strlen, hstring,
      enc_chunked_write_extensions_valuelen, hvalue, if_neg hlen, hslice]
  · simp only [extension_text, if_neg hkept, hkey, deref, pure_eq_ok, ok_bind, hstring, if_neg hlen,
      hvalue, hslice]
  · simp [escape_length, htaken]
    omega
  · -- The text of the item, piece by piece.
    have hroom : (ch ';' :: key ++ [ch '=', QUOTE] ++ escape taken ++ [QUOTE]).length + n =
        key.length + ((escape taken).length + (n + 1) + 1 + 1) + 1 := by
      simp
      omega
    have hcopy :
      copy (filled (before ++ [ch ';']) (key.length + ((escape taken).length + (n + 1) + 1 + 1)))
        (before.length + 1) key =
          .ok (filled (before ++ ch ';' :: key) ((escape taken).length + (n + 1) + 1 + 1)) := by
      have h := copy_filled (before ++ [ch ';']) key ((escape taken).length + (n + 1) + 1 + 1)
      rwa [List.length_append, List.append_assoc] at h
    have hp : before.length + 1 + key.length = (before ++ ch ';' :: key).length := by
      simp
      omega
    have hopen :
      put (filled (before ++ ch ';' :: key ++ [ch '=']) ((escape taken).length + (n + 1) + 1))
        ((before ++ ch ';' :: key).length + 1) QUOTE =
        .ok (filled (before ++ ch ';' :: key ++ [ch '=', QUOTE])
          ((escape taken).length + (n + 1))) := by
      have h :=
        put_filled (before ++ ch ';' :: key ++ [ch '=']) QUOTE ((escape taken).length + (n + 1))
      rwa [List.length_append, List.append_assoc _ [ch '=']] at h
    have hstores :
        value_stores
            (filled (before ++ ch ';' :: key ++ [ch '=', QUOTE]) ((escape taken).length + (n + 1)))
            ((before ++ ch ';' :: key).length + 2) taken =
          .ok (filled (before ++ ch ';' :: key ++ [ch '=', QUOTE] ++ escape taken) (n + 1),
            (before ++ ch ';' :: key ++ [ch '=', QUOTE] ++ escape taken).length) := by
      have h := value_stores_filled taken (before ++ ch ';' :: key ++ [ch '=', QUOTE]) (n + 1)
      rw [List.length_append] at h
      exact h
    simp only [meta_stores, if_neg hkept, hkey, deref, pure_eq_ok, ok_bind, hstring, if_neg hlen,
      hvalue, hslice, hroom, put_filled, hcopy, hp, hopen, hstores]
    simp [Nat.add_assoc]

theorem Proper.spelled {item : httpp_meta_t} (h : Proper item) :
    Spelled item (item_room item) (item_text item) := by
  by_cases hout : left_out item = true
  · rw [item_room, item_text, if_pos hout, if_pos hout]
    exact spelled_left_out hout
  have hkept : ¬ (item.key = none ∨ item.value_len ≠ 0 ∧ item.value = none) := by
    simpa [left_out] using hout
  rw [not_or] at hkept
  obtain ⟨block, hkey⟩ := Option.ne_none_iff_exists'.mp hkept.1
  have hstring : cstring block = .ok (block.takeWhile (· != 0)) := if_pos (h.key block hkey)
  have hkey_string : key_string item = block.takeWhile (· != 0) := by
    rw [key_string, hkey]
    rfl
  by_cases hlen : item.value_len = 0
  · rw [item_room, item_text, if_neg hout, if_neg hout, if_pos hlen, if_pos hlen, hkey_string]
    exact spelled_key hkey hstring hlen
  · obtain ⟨value, hvalue⟩ := Option.ne_none_iff_exists'.mp fun hnone => hkept.2 ⟨hlen, hnone⟩
    have htaken : value_taken item = value.take item.value_len := by
      rw [value_taken, hvalue]
      rfl
    rw [item_room, item_text, if_neg hout, if_neg hout, if_neg hlen, if_neg hlen, hkey_string,
      htaken]
    exact spelled_value hkey hstring hvalue hlen (h.value value hvalue)

/-! ## All items -/

def items_text (items : List httpp_meta_t) : Bytes := (items.map item_text).flatten

/-- With the NUL at the end. -/
def items_room (items : List httpp_meta_t) : Nat := 1 + (items.map item_room).sum

theorem items_measured {items : List httpp_meta_t} (h : ∀ item ∈ items, Proper item) :
    items.mapM extension_room = .ok (items.map item_room) ∧
      items.mapM extension_text = .ok (items.map item_text) ∧
      (items_text items).length + 1 ≤ items_room items := by
  induction items with
  | nil => exact ⟨rfl, rfl, Nat.le_refl 1⟩
  | cons item items ih =>
    rw [List.forall_mem_cons] at h
    have hitem := h.1.spelled
    obtain ⟨hrooms, htexts, hle⟩ := ih h.2
    refine ⟨?_, ?_, ?_⟩
    · rw [List.mapM_cons, hitem.measured, ok_bind, hrooms]
      rfl
    · rw [List.mapM_cons, hitem.written, ok_bind, htexts]
      rfl
    · have hfits := hitem.fits
      rw [items_text, items_room] at hle ⊢
      rw [List.map_cons, List.map_cons, List.flatten_cons, List.length_append, List.sum_cons]
      omega

theorem meta_stores_filled {items : List httpp_meta_t} (h : ∀ item ∈ items, Proper item)
    (before : Bytes) (n : Nat) :
    meta_stores (filled before ((items_text items).length + n)) before.length items =
      .ok (filled (before ++ items_text items) n, (before ++ items_text items).length) := by
  induction items generalizing before with
  | nil =>
    rw [items_text, List.map_nil, List.flatten_nil, List.append_nil, List.length_nil, Nat.zero_add]
    rfl
  | cons item items ih =>
    rw [List.forall_mem_cons] at h
    have htext : items_text (item :: items) = item_text item ++ items_text items := rfl
    rw [htext, List.length_append, Nat.add_assoc, h.1.spelled.stored, ih h.2, List.append_assoc]

/-- No block is made for the extensions. -/
def Unextended (self : httpp_encoding_t) : Prop :=
  self.meta_write = [] ∨ self.grants .extensions 0 (items_room self.meta_write) = false

instance (self : httpp_encoding_t) : Decidable (Unextended self) :=
  inferInstanceAs (Decidable (_ ∨ _))

theorem extensions_buflen_eq {items : List httpp_meta_t} (h : ∀ item ∈ items, Proper item) :
    extensions_buflen items = .ok (items_room items) := by
  rw [extensions_buflen, (items_measured h).1]
  rfl

/-- The first block: the text of the items and its NUL, in a block of `buflen` bytes. -/
theorem extensions_stored {self : httpp_encoding_t} (h : ∀ item ∈ self.meta_write, Proper item) :
    ∃ self', self'.grants .write_encoded = self.grants .write_encoded ∧
      (Unextended self ∧ enc_chunked_write_extensions_stores self = .ok (none, self') ∧
          enc_chunked_write_extensions self = .ok (none, self') ∨
        ¬ Unextended self ∧
          ∃ n, (items_text self.meta_write ++ [0]).length + n = items_room self.meta_write ∧
            enc_chunked_write_extensions_stores self =
              .ok (some (filled (items_text self.meta_write ++ [0]) n), self') ∧
            enc_chunked_write_extensions self =
              .ok (some (items_text self.meta_write ++ [0]), self')) := by
  obtain ⟨hrooms, htexts, hle⟩ := items_measured h
  have hbuflen := extensions_buflen_eq h
  have hother : (malloc self.grants .extensions (items_room self.meta_write)).2 .write_encoded =
      self.grants .write_encoded := malloc_other _ (by decide) _
  by_cases hnil : self.meta_write = []
  · exact ⟨self, rfl, .inl ⟨.inl hnil, if_pos hnil, if_pos hnil⟩⟩
  by_cases hgrant : (malloc self.grants .extensions (items_room self.meta_write)).1 = true
  · have hroom : items_room self.meta_write = (items_text self.meta_write).length +
        (items_room self.meta_write - (items_text self.meta_write).length - 1 + 1) := by
      omega
    have hfilled := meta_stores_filled h []
      (items_room self.meta_write - (items_text self.meta_write).length - 1 + 1)
    rw [List.nil_append, List.length_nil, ← hroom] at hfilled
    refine ⟨{ self with
      meta_write := []
      grants := (malloc self.grants .extensions (items_room self.meta_write)).2 }, hother,
      .inr ⟨not_or.mpr ⟨hnil, Bool.not_eq_false _ ▸ hgrant⟩,
        items_room self.meta_write - (items_text self.meta_write).length - 1, ?_, ?_, ?_⟩⟩
    · rw [List.length_append, List.length_singleton]
      omega
    · rw [enc_chunked_write_extensions_stores, if_neg hnil, hbuflen, ok_bind]
      simp only [hgrant, not_true, if_false, hfilled, ok_bind, put_filled]
      rfl
    · rw [enc_chunked_write_extensions, if_neg hnil, hrooms, ok_bind]
      change (if ¬ (malloc self.grants .extensions (items_room self.meta_write)).1 = true then _
        else _) = _
      rw [if_neg (not_not.mpr hgrant), htexts, ok_bind, if_neg]
      · rfl
      · exact Nat.not_lt.mpr (by rw [List.length_append, List.length_singleton]; exact hle)
  · refine ⟨{ self with
      grants := (malloc self.grants .extensions (items_room self.meta_write)).2 }, hother,
      .inl ⟨.inr (Bool.eq_false_iff.mpr hgrant), ?_, ?_⟩⟩
    · rw [enc_chunked_write_extensions_stores, if_neg hnil, hbuflen, ok_bind]
      exact if_pos hgrant
    · rw [enc_chunked_write_extensions, if_neg hnil, hrooms, ok_bind]
      exact if_pos hgrant

/-! ## The chunk -/

theorem chunk_stores_filled (encoded_length extensions : Bytes) {data : Bytes} {len : Nat}
    (hlen : len ≤ data.length) :
    let header := encoded_length ++ extensions ++ crlf
    chunk_stores (header.length + len + crlf.length) header.length encoded_length extensions
      (some data) len =
      .ok (filled (header ++ data.take len ++ crlf) 0) := by
  intro header
  have hcrlf : crlf.length = 2 := rfl
  have hprint := print_filled header (len + 1)
  have hroom : header.length + 1 + (len + 1) = header.length + len + crlf.length := by omega
  rw [hroom] at hprint
  have htaken : (data.take len).length = len := List.length_take_of_le hlen
  have hcopy : copy (filled (header ++ [0]) (len + 1)) header.length (data.take len ++ crlf) =
      .ok (filled (header ++ (data.take len ++ crlf)) 0) :=
    copy_over header [0] (data.take len ++ crlf) (by simp [htaken, hcrlf]; omega) (Nat.zero_le _)
  rw [copy_append, htaken, ← List.append_assoc] at hcopy
  rw [chunk_stores, hprint, ok_bind, deref, pure_eq_ok, ok_bind, slice_front hlen, ok_bind]
  exact hcopy

theorem chunk_stores_null (total_chunk_size header_length : Nat) (encoded_length extensions : Bytes)
    (len : Nat) :
    Yields (chunk_stores total_chunk_size header_length encoded_length extensions none len) fun _ =>
      False :=
  yields_bind fun _ _ => yields_error _

theorem encoded_length_spec {n : Nat} (h : n ≤ 1048576) :
    ((Block.filled [] 32).print 32 (hex n) >>= Block.string) = .ok (hex n) := by
  have hlen := hex_length_le (k := 6) (by decide) (show n < 16 ^ 6 by omega)
  have hnul : 0 ∉ hex n := fun hmem => absurd (hex_digits n 0 hmem) (by decide)
  have hroom : (hex n).length + 1 + (31 - (hex n).length) = 32 := by omega
  have hprint := print_string hnul (31 - (hex n).length)
  rwa [hroom] at hprint

/-- What `__enc_chunked_write` returns once the extensions are written. -/
def chunk_result (self : httpp_encoding_t) (line : Bytes) (buf : Option Bytes) (n : Nat) :
    Int × httpp_encoding_t :=
  let text := frame line buf n
  let self1 := { self with grants := (malloc self.grants .write_encoded text.length).2 }
  if (malloc self.grants .write_encoded text.length).1 then
    (n,
      { self1 with
        buf_write_encoded := some text,
        buf_write_encoded_offset := 0,
        buf_write_encoded_len := text.length })
  else (-1, { self1 with buf_write_encoded := none })

theorem total_chunk_size_eq (line : Bytes) {buf : Option Bytes} {n : Nat}
    (hlen : ((buf.getD []).take n).length = n) :
    (hex n).length + line.length + 2 + n + 2 + (if buf = none then 2 else 0) =
      (frame line buf n).length := by
  unfold frame
  rw [List.length_append, List.length_append, hlen]
  split_ifs <;> simp only [List.length_append, crlf, List.length_cons, List.length_nil]

section Queue

variable (self : httpp_encoding_t) (line : Bytes)

theorem queue_full {data : Bytes} {n : Nat} (hn : n ≤ data.length)
    (hgrant : (malloc self.grants .write_encoded (frame line (some data) n).length).1 = true) :
    queue_stores self (hex n) line (some data) n =
      .ok ((chunk_result self line (some data) n).1, some (filled (frame line (some data) n) 0),
        (chunk_result self line (some data) n).2) := by
  have htotal : (hex n).length + line.length + 2 + n + 2 + (if some data = none then 2 else 0) =
      (frame line (some data) n).length := total_chunk_size_eq line (List.length_take_of_le hn)
  have hheader : (hex n).length + line.length + 2 = (hex n ++ line ++ crlf).length := by
    simp [crlf, Nat.add_assoc]
  have hframe :
      (hex n ++ line ++ crlf).length + n + crlf.length = (frame line (some data) n).length := by
    rw [← htotal, hheader]
    rfl
  have hfull : hex n ++ line ++ crlf ++ data.take n ++ crlf = frame line (some data) n := rfl
  have hchunk := chunk_stores_filled (hex n) line hn
  simp only at hchunk
  rw [hframe, ← hheader, hfull] at hchunk
  unfold queue_stores chunk_result
  simp only [htotal, hgrant, not_true, if_false, if_true, hchunk, ok_bind, mapM_filled]
  rfl

theorem queue_refused {buf : Option Bytes} {n : Nat} (hlen : ((buf.getD []).take n).length = n)
    (hgrant : ¬ (malloc self.grants .write_encoded (frame line buf n).length).1 = true) :
    queue_stores self (hex n) line buf n =
      .ok ((chunk_result self line buf n).1, none, (chunk_result self line buf n).2) := by
  have htotal := total_chunk_size_eq line hlen
  unfold queue_stores chunk_result
  simp only [htotal, if_pos hgrant, if_neg hgrant]
  rfl

theorem queue_null {buf : Option Bytes} {n : Nat} (hbuf : buf = none)
    (hlen : ((buf.getD []).take n).length = n)
    (hgrant : (malloc self.grants .write_encoded (frame line buf n).length).1 = true) :
    Yields (queue_stores self (hex n) line buf n) fun _ => False := by
  have htotal := total_chunk_size_eq line hlen
  unfold queue_stores
  simp only [htotal, hgrant, not_true, if_false]
  subst hbuf
  exact Yields.bind (chunk_stores_null _ _ _ _ _) fun _ h => h.elim

end Queue

theorem body_bytes {buf : Option Bytes} {len : Nat}
    (hbuf : ∀ block, buf = some block → len ≤ block.length) :
    bytes_at buf (chunk_size buf len) = .ok ((buf.getD []).take (chunk_size buf len)) ∧
      ((buf.getD []).take (chunk_size buf len)).length = chunk_size buf len := by
  refine ⟨bytes_at_spec hbuf, ?_⟩
  cases buf with
  | none => rfl
  | some block =>
    have hle := hbuf block rfl
    simp [chunk_size]
    omega

/-- Both functions end the same way. -/
theorem write_stored {self self1 : httpp_encoding_t} {line : Bytes} {buf : Option Bytes} {len : Nat}
    (hidle : ¬ httpp_encoding_pending self > 0)
    (hbuf : ∀ block, buf = some block → len ≤ block.length)
    (hext : enc_chunked_write_extensions_stores self = .ok (none, self1) ∧
        enc_chunked_write_extensions self = .ok (none, self1) ∧ line = [] ∨
      ∃ block text, enc_chunked_write_extensions_stores self = .ok (some block, self1) ∧
        enc_chunked_write_extensions self = .ok (some text, self1) ∧ block.string = .ok line ∧
        cstring text = .ok line) :
    let n := chunk_size buf len
    enc_chunked_write_stores self buf len = queue_stores self1 (hex n) line buf n ∧
      enc_chunked_write self buf len = .ok (chunk_result self1 line buf n) := by
  intro n
  have hsize :
      (if (if buf = none then 0 else len) > 1048576 then 1048576 else if buf = none then 0
      else len) = n := by
    simp only [n, chunk_size]
    split_ifs <;> omega
  have hsmall : n ≤ 1048576 := by
    simp only [n, chunk_size]
    split_ifs <;> omega
  obtain ⟨hbody, hlen⟩ : bytes_at buf n = .ok ((buf.getD []).take n) ∧
      ((buf.getD []).take n).length = n := body_bytes hbuf
  have htotal := total_chunk_size_eq line hlen
  have hdigits := encoded_length_spec hsmall
  constructor
  · unfold enc_chunked_write_stores
    rcases hext with ⟨hstored, -, rfl⟩ | ⟨block, text, hstored, -, hline, -⟩
    · simp only [if_neg hidle, hsize, hdigits, ok_bind, hstored]
    · simp only [if_neg hidle, hsize, hdigits, ok_bind, hstored, hline]
  · unfold enc_chunked_write chunk_result
    rcases hext with ⟨-, hrun, rfl⟩ | ⟨block, text, -, hrun, -, hline⟩
    · simp only [if_neg hidle, hsize, hrun, ok_bind, pure_eq_ok, htotal, hbody]
      rw [ite_not, apply_ite Except.ok]
      rfl
    · simp only [if_neg hidle, hsize, hrun, ok_bind, pure_eq_ok, hline, htotal, hbody]
      rw [ite_not, apply_ite Except.ok]
      rfl

/-- What is read of the first block when the chunk is made. -/
def extension_line (self : httpp_encoding_t) : Bytes :=
  if Unextended self then [] else (items_text self.meta_write).takeWhile (· != 0)

/-- There is nothing left to flush, and there is memory for the chunk. -/
def ChunkGranted (self : httpp_encoding_t) (buf : Option Bytes) (len : Nat) : Prop :=
  ¬ httpp_encoding_pending self > 0 ∧
    self.grants .write_encoded 0 (frame (extension_line self) buf (chunk_size buf len)).length =
      true

/-- Both functions come back, and store nowhere but in their blocks. They make them where there is
memory. The text of the extensions and its NUL fit into the bytes that are counted for them, and the
bytes of the chunk are all set. -/
def Fits (self : httpp_encoding_t) (buf : Option Bytes) (len : Nat) : Prop :=
  (∃ buflen block self', extensions_buflen self.meta_write = .ok buflen ∧
    enc_chunked_write_extensions_stores self = .ok (block, self') ∧
    (block = none ↔ self.meta_write = [] ∨ (malloc self.grants .extensions buflen).1 = false) ∧
    ∀ b, block = some b → b.length = buflen ∧
      ∃ text n, b = filled (text ++ [0]) n ∧
        enc_chunked_write_extensions self = .ok (some (text ++ [0]), self')) ∧
  ∃ ret block self', enc_chunked_write_stores self buf len = .ok (ret, block, self') ∧
    enc_chunked_write self buf len = .ok (ret, self') ∧
    (block = none ↔ ¬ ChunkGranted self buf len) ∧
    ∀ b, block = some b → b.length = self'.buf_write_encoded_len ∧ Full b ∧
      b.mapM id = self'.buf_write_encoded

theorem extensions_fit {self : httpp_encoding_t} (hitems : ∀ item ∈ self.meta_write, Proper item) :
    ∃ buflen block self', extensions_buflen self.meta_write = .ok buflen ∧
      enc_chunked_write_extensions_stores self = .ok (block, self') ∧
      (block = none ↔ self.meta_write = [] ∨ (malloc self.grants .extensions buflen).1 = false) ∧
      ∀ b, block = some b → b.length = buflen ∧
        ∃ text n, b = filled (text ++ [0]) n ∧
        enc_chunked_write_extensions self = .ok (some (text ++ [0]), self') := by
  have hbuflen := extensions_buflen_eq hitems
  obtain ⟨self', -, ⟨hnone, hstored, -⟩ | ⟨hsome, n, hn, hstored, hrun⟩⟩ := extensions_stored hitems
  · exact ⟨_, none, self', hbuflen, hstored, iff_of_true rfl hnone, nofun⟩
  · refine ⟨_, _, self', hbuflen, hstored, iff_of_false nofun hsome, ?_⟩
    rintro b ⟨⟩
    exact ⟨by rw [length_filled, hn], _, n, rfl, hrun⟩

/-- The text of the extensions, and what is left when it is written. -/
theorem line_stored {self : httpp_encoding_t} (hitems : ∀ item ∈ self.meta_write, Proper item) :
    ∃ self1, self1.grants .write_encoded = self.grants .write_encoded ∧
      (enc_chunked_write_extensions_stores self = .ok (none, self1) ∧
          enc_chunked_write_extensions self = .ok (none, self1) ∧ extension_line self = [] ∨
        ∃ block text, enc_chunked_write_extensions_stores self = .ok (some block, self1) ∧
          enc_chunked_write_extensions self = .ok (some text, self1) ∧
          block.string = .ok (extension_line self) ∧ cstring text = .ok (extension_line self)) := by
  obtain ⟨self1, hgrants, ⟨hnone, hstored, hrun⟩ | ⟨hsome, n, -, hstored, hrun⟩⟩ :=
    extensions_stored hitems
  · exact ⟨self1, hgrants, .inl ⟨hstored, hrun, if_pos hnone⟩⟩
  · have hline : cstring (items_text self.meta_write ++ [0]) = .ok (extension_line self) := by
      rw [extension_line, if_neg hsome]
      exact cstring_cut _ []
    exact ⟨self1, hgrants,
      .inr ⟨_, _, hstored, hrun, (string_filled _ n).trans hline, hline⟩⟩

/-- **The buffers of the writer.** They fit, unless a chunk is made for a null pointer. -/
theorem writer_fits_iff {self : httpp_encoding_t} (hitems : ∀ item ∈ self.meta_write, Proper item)
    {buf : Option Bytes} {len : Nat} (hbuf : ∀ block, buf = some block → len ≤ block.length) :
    Fits self buf len ↔ buf ≠ none ∨ ¬ ChunkGranted self buf len := by
  have hext := extensions_fit hitems
  by_cases hbusy : httpp_encoding_pending self > 0
  · have hungranted : ¬ ChunkGranted self buf len := fun h => h.1 hbusy
    refine iff_of_true ⟨hext, 0, none, self, ?_, if_pos hbusy, iff_of_true rfl hungranted, nofun⟩
      (.inr hungranted)
    rw [enc_chunked_write_stores, if_pos hbusy]
    rfl
  obtain ⟨self1, hgrants, hstored⟩ := line_stored hitems
  have hgranted : ChunkGranted self buf len ↔ (malloc self1.grants .write_encoded
      (frame (extension_line self) buf (chunk_size buf len)).length).1 = true := by
    show _ ↔ self1.grants .write_encoded 0 _ = true
    rw [hgrants]
    exact and_iff_right hbusy
  obtain ⟨hstores, hwrite⟩ := write_stored hbusy hbuf hstored
  obtain ⟨-, hlen⟩ := body_bytes hbuf
  by_cases hmalloc : (malloc self1.grants .write_encoded
    (frame (extension_line self) buf (chunk_size buf len)).length).1 = true
  · cases buf with
    | none =>
      refine iff_of_false ?_ (not_or.mpr ⟨not_not.mpr rfl, not_not.mpr (hgranted.mpr hmalloc)⟩)
      rintro ⟨-, ret, block, self', hstores', -⟩
      exact queue_null self1 _ rfl hlen hmalloc _ (hstores.symm.trans hstores')
    | some data =>
      have hn : chunk_size (some data) len ≤ data.length := by
        rw [← hlen]
        exact List.length_take_le' _ data
      refine iff_of_true ⟨hext, _, _, _, hstores.trans (queue_full self1 _ hn hmalloc), hwrite,
        iff_of_false nofun (not_not.mpr (hgranted.mpr hmalloc)), ?_⟩ (.inl nofun)
      rintro b ⟨⟩
      simp only [chunk_result, if_pos hmalloc]
      exact ⟨length_filled _ 0, full_filled _, mapM_filled _⟩
  · refine iff_of_true ⟨hext, _, none, _,
      hstores.trans (queue_refused self1 _ hlen hmalloc), hwrite,
      iff_of_true rfl (hgranted.not.mpr hmalloc), nofun⟩ (.inr (hgranted.not.mpr hmalloc))

/-- No key, no value, a value that is missing, and one with quotes. -/
def mixed : List httpp_meta_t :=
  [⟨none, some (ascii "x"), 1⟩, ⟨some (ascii "a" ++ [0]), none, 0⟩,
    ⟨some (ascii "b" ++ [0]), none, 3⟩, ⟨some (ascii "title" ++ [0]), some (ascii "\"A\""), 3⟩]

theorem mixed_proper : ∀ item ∈ mixed, Proper item := by
  intro item hitem
  simp only [mixed, List.mem_cons, List.not_mem_nil, or_false] at hitem
  rcases hitem with rfl | rfl | rfl | rfl
  · exact ⟨nofun, by rintro _ ⟨⟩; decide⟩
  · exact ⟨by rintro _ ⟨⟩; decide, nofun⟩
  · exact ⟨by rintro _ ⟨⟩; decide, nofun⟩
  · exact ⟨by rintro _ ⟨⟩; decide, by rintro _ ⟨⟩; decide⟩

theorem writer_fits_iff_mixed :
    Fits { chunked_encoding fun _ _ _ => true with meta_write := mixed } (some (ascii "hello")) 5 :=
  (@writer_fits_iff { chunked_encoding fun _ _ _ => true with meta_write := mixed } mixed_proper
    (some (ascii "hello")) 5
    fun block hb => by cases hb; decide).mpr (.inl nofun)

/-- The chunk that ends the stream is for a null pointer. -/
theorem last_chunk_unfit : ¬ ∀ (self : httpp_encoding_t) (buf : Option Bytes) (len : Nat),
    (∀ item ∈ self.meta_write, Proper item) → (∀ block, buf = some block → len ≤ block.length) →
      Fits self buf len := by
  intro h
  obtain ⟨-, ret, block, self', hstores, -⟩ :=
    h (chunked_encoding fun _ _ _ => true) none 0 nofun nofun
  exact absurd hstores nofun

end Encoding
