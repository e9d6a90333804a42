import IcecastCommon.Encoding.Bounds
import IcecastCommon.Encoding.Extensions
import IcecastCommon.Lib.Strings

/-!
# The grammar of chunk extensions

Lists of extensions with no value, a token or a quoted string, and what
`__enc_chunked_read_extentions` makes of them.
-/

namespace Encoding

open Lib

/-! ## Extensions -/

/-- What stands behind a `=`. -/
inductive Value where
  | token (text : Bytes) (token : Token text) (no_backslash : BACKSLASH ∉ text)
  | string (text : Bytes) (no_quote : QUOTE ∉ text) (no_backslash : BACKSLASH ∉ text)

def Value.text : Value → Bytes
  | token text _ _ => text
  | string text _ _ => text

/-- The value as it stands in a header. -/
def Value.rendered : Value → Bytes
  | token text _ _ => text
  | string text _ _ => QUOTE :: text ++ [QUOTE]

structure Extension where
  name : Bytes
  token : Token name
  value : Option Value

def Extension.rendered (e : Extension) : Bytes :=
  ch ';' :: (e.name ++ match e.value with
    | none => []
    | some value => ch '=' :: value.rendered)

def rendered (es : List Extension) : Bytes := es.flatMap Extension.rendered

/-- The item in memory is this extension. -/
structure Keeps (item : httpp_meta_t) (e : Extension) : Prop where
  stands : Stands item (e.name, (e.value.map Value.text).getD [])
  value : item.value = none ↔ e.value = none

/-! ## What is read as it stands -/

/-- What the reader asks the allocator for. -/
def Extension.requests (e : Extension) : List (Site × Nat) :=
  match e.value with
  | none => [(.item, 32), (.key, e.name.length + 1)]
  | some value => valued_requests e.name.length value.rendered.length

/-- Of the text behind a token of `n` bytes, the reader looks at the bytes from the second on, as
many as the token has. A `;` there ends the token. -/
def Clear (rest : Bytes) (n : Nat) : Prop := ∀ i < n, (rest[i + 1]?.any (· != ch ';')) = true

def Value.Clear (rest : Bytes) : Value → Prop
  | token text _ _ => Encoding.Clear rest text.length
  | string _ _ _ => True

/-- What may follow an extension. -/
def Extension.Apart (e : Extension) (es : List Extension) (post : Bytes) : Prop :=
  match e.value with
  | none => es = []
  | some value => value.Clear (Encoding.rendered es ++ post)

def Separate (post : Bytes) : List Extension → Prop
  | [] => True
  | e :: es => e.Apart es post ∧ Separate post es

instance (rest : Bytes) (n : Nat) : Decidable (Clear rest n) :=
  inferInstanceAs (Decidable (∀ i < n, (rest[i + 1]?.any (· != ch ';')) = true))

instance (rest : Bytes) : ∀ value : Value, Decidable (value.Clear rest)
  | .token text _ _ => inferInstanceAs (Decidable (Clear rest text.length))
  | .string _ _ _ => isTrue trivial

instance (e : Extension) (es : List Extension) (post : Bytes) : Decidable (e.Apart es post) :=
  match e, es with
  | ⟨_, _, none⟩, [] => isTrue rfl
  | ⟨_, _, none⟩, _ :: _ => isFalse nofun
  | ⟨_, _, some value⟩, es =>
    inferInstanceAs (Decidable (value.Clear (Encoding.rendered es ++ post)))

instance decidableSeparate (post : Bytes) : ∀ es, Decidable (Separate post es)
  | [] => isTrue trivial
  | e :: es =>
    have := decidableSeparate post es
    inferInstanceAs (Decidable (e.Apart es post ∧ Separate post es))

/-! ## One loop at a time -/

theorem read_behind {raw rest : Bytes} {p : Nat} (h : raw.drop p = rest) (i : Nat) :
    Lib.read raw (p + i) = match rest[i]? with
      | some b => .ok b
      | none => .error .bounds := by
  unfold Lib.read
  rw [← h, List.getElem?_drop]
  rfl

theorem key_loop_past {raw key rest : Bytes} {p len : Nat} (hraw : raw.drop p = key ++ rest)
    (hkey : ch '=' ∉ key) (hlen : key.length ≤ len) :
    Yields (key_loop raw p len) (key.length ≤ ·) := by
  induction key generalizing p len with
  | nil => exact fun _ _ => Nat.zero_le _
  | cons c key ih =>
    obtain ⟨n, rfl⟩ : ∃ n, len = n + 1 := ⟨len - 1, by simp at hlen; omega⟩
    rw [List.mem_cons, not_or] at hkey
    unfold key_loop
    rw [read_drop hraw, ok_bind, if_neg (fun h => hkey.1 h.symm)]
    refine (ih (drop_next hraw) hkey.2 (by simpa using hlen)).bind fun k hk => yields_ok ?_
    exact Nat.succ_le_succ hk

theorem value_loop_token {raw text rest : Bytes} {p len : Nat} (hraw : raw.drop p = text ++ rest)
    (htext : ∀ b ∈ text, b ≠ QUOTE ∧ b ≠ ch ';')
    (hend : len = text.length ∨ text.length < len ∧ ∃ tail, rest = ch ';' :: tail) :
    value_loop raw p 0 len = .ok text.length := by
  induction text generalizing p len with
  | nil =>
    rcases hend with rfl | ⟨hlen, tail, rfl⟩
    · rfl
    · obtain ⟨n, rfl⟩ : ∃ n, len = n + 1 := ⟨len - 1, by simp at hlen; omega⟩
      unfold value_loop
      rw [read_drop hraw]
      rfl
  | cons c text ih =>
    obtain ⟨n, rfl⟩ : ∃ n, len = n + 1 := ⟨len - 1, by simp at hend; omega⟩
    have hc := htext c (by simp)
    have hrest : value_loop raw (p + 1) 0 n = .ok text.length := by
      refine ih (drop_next hraw) (fun b hb => htext b (List.mem_cons_of_mem c hb)) ?_
      simpa using hend
    unfold value_loop
    rw [read_drop hraw, ok_bind, if_neg (by simp), if_neg hc.1, if_neg hc.2, hrest]
    rfl

theorem decode_loop_token {raw text more rest done : Bytes} {c p size : Nat}
    (hraw : raw.drop c = text ++ more) (hrest : raw.drop p = rest) (htext : QUOTE ∉ text)
    (hsize : done.length + text.length ≤ size) :
    (Clear rest text.length → decode_loop raw p size c 0 done text.length = .ok (done ++ text)) ∧
      (¬ Clear rest text.length →
        Yields (decode_loop raw p size c 0 done text.length)
          (·.length < done.length + text.length)) := by
  induction text generalizing c done with
  | nil =>
    constructor
    · intro _
      rw [List.append_nil]
      rfl
    · intro h
      exact absurd (fun i hi => absurd hi (Nat.not_lt_zero i)) h
  | cons b text ih =>
    rw [List.mem_cons, not_or] at htext
    rw [List.length_cons] at hsize ⊢
    have hclear : Clear rest (text.length + 1) ↔
        Clear rest text.length ∧ (rest[text.length + 1]?.any (· != ch ';')) = true :=
        Nat.forall_lt_succ_right
    rw [hclear]
    unfold decode_loop
    rw [read_drop hraw, ok_bind, if_neg (by simp), if_neg (fun h => htext.1 h.symm),
      read_behind hrest]
    have hsize' : (done ++ [b]).length + text.length ≤ size := by
      rw [List.length_append, List.length_singleton]
      omega
    have hnext := ih (drop_next hraw) htext.2 hsize'
    rw [List.length_append, List.length_singleton, List.append_assoc] at hnext
    cases hb : rest[text.length + 1]? with
    | none => exact ⟨fun h => absurd h.2 (by simp), fun _ => yields_error _⟩
    | some b' =>
      rw [ok_bind, push_ok (by omega)]
      by_cases hsemi : b' = ch ';'
      · rw [if_pos hsemi]
        refine ⟨fun h => absurd h.2 (by simp [hsemi]), fun _ => yields_ok ?_⟩
        omega
      · rw [if_neg hsemi, ok_bind]
        refine ⟨fun h => hnext.1 h.1, fun h => ?_⟩
        rw [Nat.add_comm text.length 1, ← Nat.add_assoc]
        refine hnext.2 fun hc => h ⟨hc, ?_⟩
        simpa using hsemi

/-! ## One extension -/

namespace Value

variable {raw rest : Bytes} {p len : Nat}

theorem rendered_pos (v : Value) : 0 < v.rendered.length := by
  cases v with
  | token text token _ => exact List.length_pos_iff.mpr token.ne_nil
  | string text _ _ => exact Nat.succ_pos _

theorem text_length_le (v : Value) : v.text.length ≤ v.rendered.length := by
  cases v with
  | token text _ _ => exact le_rfl
  | string text _ _ =>
    show text.length ≤ (QUOTE :: text ++ [QUOTE]).length
    simp
    omega

theorem string_rendered {text : Bytes} (no_quote : QUOTE ∉ text) {no_backslash : BACKSLASH ∉ text} :
    (string text no_quote no_backslash).rendered = quoted text := by
  rw [quoted, escape_plain no_quote]
  rfl

theorem measured (v : Value) (hraw : raw.drop p = v.rendered ++ rest)
    (hend : len = v.rendered.length ∨ v.rendered.length < len ∧ ∃ tail, rest = ch ';' :: tail) :
    value_loop raw p 0 len = .ok v.rendered.length := by
  cases v with
  | token text token _ =>
    exact value_loop_token hraw (fun b hb => ⟨(token.plain b hb).2.2.1, (token.plain b hb).1⟩) hend
  | string text no_quote no_backslash =>
    rw [string_rendered no_quote] at hraw hend ⊢
    exact value_loop_quoted hraw no_backslash (by omega)

theorem decoded (v : Value) {c : Nat} (hraw : raw.drop c = v.rendered ++ rest)
    (hrest : raw.drop p = rest) :
    (v.Clear rest → decode_loop raw p (v.rendered.length + 1) c 0 [] v.rendered.length =
      .ok v.text) ∧
      (¬ v.Clear rest →
        Yields (decode_loop raw p (v.rendered.length + 1) c 0 [] v.rendered.length)
          (·.length < v.text.length)) := by
  cases v with
  | token text token _ =>
    have hquote : QUOTE ∉ text := fun h => (token.plain _ h).2.2.1 rfl
    have hsize : ([] : Bytes).length + text.length ≤ text.length + 1 := by simp
    have hdecode := decode_loop_token hraw hrest hquote hsize
    rw [List.nil_append, List.length_nil, Nat.zero_add] at hdecode
    exact hdecode
  | string text no_quote no_backslash =>
    rw [string_rendered no_quote] at hraw ⊢
    have hsize : text.length < (quoted text).length + 1 := by
      rw [quoted, escape_plain no_quote]
      simp
      omega
    exact ⟨fun _ => decode_loop_quoted hraw no_backslash hsize, fun h => absurd trivial h⟩

end Value

theorem rendered_cons (e : Extension) (es : List Extension) :
    rendered (e :: es) = e.rendered ++ rendered es := rfl

theorem rendered_front {es : List Extension} (h : es ≠ []) :
    ∃ tail, rendered es = ch ';' :: tail := by
  obtain ⟨e, es', rfl⟩ := List.exists_cons_of_ne_nil h
  exact ⟨_, rfl⟩

theorem Token.no_equals {name : Bytes} (h : Token name) : ch '=' ∉ name :=
  fun hmem => (h.plain _ hmem).2.1 rfl

theorem rendered_ends (es : List Extension) (post : Bytes) (n : Nat) :
    n + (rendered es).length = n ∨
      n < n + (rendered es).length ∧ ∃ tail, rendered es ++ post = ch ';' :: tail := by
  by_cases hes : es = []
  · rw [hes]
    exact .inl rfl
  · obtain ⟨tail, htail⟩ := rendered_front hes
    rw [htail]
    exact .inr ⟨by simp, _, rfl⟩

namespace Extension

variable {e : Extension}

theorem rendered_none (h : e.value = none) : e.rendered = ch ';' :: e.name := by
  rw [Extension.rendered, h, List.append_nil]

theorem rendered_some {value : Value} (h : e.value = some value) (rest : Bytes) :
    e.rendered ++ rest = ch ';' :: (e.name ++ ch '=' :: (value.rendered ++ rest)) := by
  rw [Extension.rendered, h]
  simp

theorem length_some {value : Value} (h : e.value = some value) :
    e.rendered.length = 1 + e.name.length + 1 + value.rendered.length := by
  have hlen := congrArg List.length (rendered_some h [])
  simp only [List.append_nil, List.length_cons, List.length_append] at hlen
  omega

theorem requests_none (h : e.value = none) :
    e.requests = [(.item, 32), (.key, e.name.length + 1)] := by
  unfold Extension.requests
  rw [h]

theorem requests_some {value : Value} (h : e.value = some value) :
    e.requests = valued_requests e.name.length value.rendered.length := by
  unfold Extension.requests
  rw [h]

theorem apart_none (h : e.value = none) {es : List Extension} {post : Bytes} :
    e.Apart es post ↔ es = [] := by
  unfold Extension.Apart
  rw [h]

theorem apart_some {value : Value} (h : e.value = some value) {es : List Extension} {post : Bytes} :
    e.Apart es post ↔ value.Clear (Encoding.rendered es ++ post) := by
  unfold Extension.Apart
  rw [h]

end Extension

theorem cstring_longer {name : Bytes} (hname : 0 ∉ name) {c : Byte} (hc : c ≠ 0) (more : Bytes) :
    cstring (name ++ c :: more ++ [0]) ≠ .ok name := by
  rw [cstring_cut, List.takeWhile_append_of_pos (all_ne hname),
    List.takeWhile_cons_of_pos (by simpa using hc), ne_eq, Except.ok.injEq]
  intro h
  have hlen := congrArg List.length h
  simp at hlen

section Loop

variable {raw post : Bytes} {p fuel : Nat} {self self' : httpp_encoding_t} {e : Extension}
  {es : List Extension}

/-- The item of an extension without a value. -/
def bare (name : Bytes) : httpp_meta_t :=
  { key := some (name ++ [0]), value := none, value_len := 0 }

theorem bare_keeps (hvalue : e.value = none) : Keeps (bare e.name) e := by
  refine ⟨⟨⟨_, rfl, cstring_append e.token.nulFree []⟩, ?_, ?_⟩, ?_⟩
  · rw [hvalue]
    rfl
  · rw [hvalue]
    exact fun h => absurd rfl h
  · exact ⟨fun _ => hvalue, fun _ => rfl⟩

theorem stored_keeps {value : Value} (hvalue : e.value = some value) :
    Keeps (stored (e.name, value.text)) e := by
  refine ⟨?_, ?_⟩
  · rw [hvalue]
    exact stored_stands e.token.nulFree
  · rw [hvalue]
    exact ⟨nofun, nofun⟩

theorem extentions_loop_bare {name rest : Bytes} (hp : p ≤ raw.length)
    (hraw : raw.drop p = ch ';' :: (name ++ rest)) (hname : ch '=' ∉ name)
    (hgranted : Granted self.grants [(.item, 32), (.key, name.length + 1)]) :
    extentions_loop raw (fuel + 1) self p (name.length + 1) =
      .ok { self with meta_read := self.meta_read ++ [bare name]
                      grants := asked self.grants [(.item, 32), (.key, name.length + 1)] } := by
  obtain ⟨hitem, hkey, -⟩ := hgranted
  have hin : p < raw.length := by
    have := congrArg List.length hraw
    rw [List.length_drop, List.length_cons] at this
    omega
  have hraw2 := drop_next hraw
  rw [extentions_loop, if_neg (by omega), read_drop hraw, ok_bind, if_neg (by simp), meta_new_null,
    if_pos hitem]
  simp only [Nat.add_sub_cancel, key_loop_token hraw2 hname (.inl rfl), ok_bind, hkey,
    not_true, if_false, slice_drop (show p + 1 ≤ raw.length by omega) hraw2, Nat.sub_self, if_true]
  rfl

theorem extentions_loop_apart (hp : p ≤ raw.length) (hfuel : 0 < fuel)
    (hraw : raw.drop p = e.rendered ++ (rendered es ++ post))
    (hgranted : Granted self.grants e.requests) (hapart : e.Apart es post) :
    ∃ item, Keeps item e ∧
      extentions_loop raw (fuel + 1) self p (e.rendered.length + (rendered es).length) =
        extentions_loop raw fuel
          { self with
            meta_read := self.meta_read ++ [item],
            grants := asked self.grants e.requests }
          (p + e.rendered.length) (rendered es).length := by
  match hvalue : e.value with
  | none =>
    have hes := (Extension.apart_none hvalue).mp hapart
    obtain ⟨n, rfl⟩ : ∃ n, fuel = n + 1 := ⟨fuel - 1, by omega⟩
    rw [Extension.requests_none hvalue] at hgranted ⊢
    rw [Extension.rendered_none hvalue] at hraw ⊢
    refine ⟨bare e.name, bare_keeps hvalue, ?_⟩
    rw [hes]
    exact extentions_loop_bare hp hraw e.token.no_equals hgranted
  | some value =>
    have hclear := (Extension.apart_some hvalue).mp hapart
    have hlen := Extension.length_some hvalue
    have hpos := value.rendered_pos
    rw [Extension.requests_some hvalue] at hgranted ⊢
    rw [Extension.rendered_some hvalue] at hraw
    have hbehind := drop_next (drop_behind (drop_next hraw))
    have hmeasured := value.measured hbehind (rendered_ends es post value.rendered.length)
    have hdecoded := (value.decoded hbehind (drop_behind hbehind)).1 hclear
    have hleft : e.rendered.length + (rendered es).length - 1 - e.name.length - 1 =
        value.rendered.length + (rendered es).length := by omega
    refine ⟨stored (e.name, value.text), stored_keeps hvalue, ?_⟩
    rw [← hleft] at hmeasured
    rw [extentions_loop_valued fuel hp hraw e.token.no_equals
      (by omega) hmeasured hdecoded value.text_length_le
      hgranted]
    congr 1
    · omega
    · omega

theorem first_round {len : Nat} {item : httpp_meta_t} {items : List httpp_meta_t}
    (hrun : extentions_loop raw (fuel + 1) self p len = .ok self')
    (hmeta : self'.meta_read = self.meta_read ++ item :: items) :
    ∃ key_len, Round raw self.grants p len key_len item := by
  rcases extentions_round hrun with ⟨rfl, -⟩ | ⟨key_len, item', grants, hround, -, hgo⟩
  · exact absurd hmeta (by simp)
  · have hfront : self.meta_read ++ [item'] <+: self.meta_read ++ item :: items := by
      rw [← hmeta]
      rcases hgo with rfl | ⟨p', len', hgo⟩
      · exact List.prefix_rfl
      · exact extentions_loop_appends hgo
    rw [List.prefix_append_right_inj, List.cons_prefix_cons] at hfront
    rw [← hfront.1]
    exact ⟨key_len, hround⟩

section Keeps

variable {grants : Grants} {key_len : Nat} {item : httpp_meta_t}

theorem Round.last
    (hround : Round raw grants p (e.rendered.length + (rendered es).length) key_len item)
    (hraw : raw.drop p = e.rendered ++ (rendered es ++ post)) (hkeeps : Keeps item e)
    (hvalue : e.value = none) :
    Granted grants e.requests ∧ es = [] := by
  obtain ⟨block, hkey, hname⟩ := hkeeps.stands.key
  obtain ⟨hgranted, key, hslice, rfl⟩ := hround.key block hkey
  have hmeasured := hround.measured
  rw [Extension.rendered_none hvalue] at hraw hmeasured
  rw [Extension.requests_none hvalue]
  by_cases hes : es = []
  · have hkey_len : key_len = e.name.length := by
      have hloop := key_loop_token (drop_next hraw) e.token.no_equals (.inl rfl)
      rw [hes] at hmeasured
      exact Except.ok.inj (hmeasured.symm.trans hloop)
    rw [hkey_len] at hgranted
    exact ⟨⟨hround.granted, hgranted, trivial⟩, hes⟩
  · obtain ⟨tail, htail⟩ := rendered_front hes
    have hraw2 : raw.drop (p + 1) = (e.name ++ [ch ';']) ++ (tail ++ post) := by
      rw [drop_next hraw, htail]
      simp
    have hno_equals : ch '=' ∉ e.name ++ [ch ';'] := by
      rw [List.mem_append, not_or]
      exact ⟨e.token.no_equals, by decide⟩
    have hpast := key_loop_past hraw2 hno_equals (by rw [htail]; simp) key_len hmeasured
    have hcut : key = e.name ++ ch ';' :: (tail ++ post).take (key_len - (e.name.length + 1)) := by
      rw [(slice_eq_ok hslice).2, hraw2, List.take_append, List.take_of_length_le hpast]
      simp
    rw [hcut] at hname
    exact absurd hname (cstring_longer e.token.nulFree (by decide) _)

theorem Round.clear
    (hround : Round raw grants p (e.rendered.length + (rendered es).length) key_len item)
    (hraw : raw.drop p = e.rendered ++ (rendered es ++ post)) (hkeeps : Keeps item e)
    {value : Value} (hvalue : e.value = some value) :
    Granted grants e.requests ∧ value.Clear (rendered es ++ post) := by
  obtain ⟨block, hkey, -⟩ := hkeeps.stands.key
  obtain ⟨hgranted, -⟩ := hround.key block hkey
  have hlen := Extension.length_some hvalue
  have hpos := value.rendered_pos
  rw [Extension.rendered_some hvalue] at hraw
  rw [Extension.requests_some hvalue]
  have hbehind := drop_next (drop_behind (drop_next hraw))
  have hkey_len : key_len = e.name.length := by
    have hmeasured := key_loop_token (drop_next hraw) e.token.no_equals
      (.inr ⟨show e.name.length < e.rendered.length + (rendered es).length - 1 by omega, _, rfl⟩)
    exact Except.ok.inj (hround.measured.symm.trans hmeasured)
  have hne : item.value ≠ none := by
    rw [ne_eq, hkeeps.value, hvalue]
    exact Option.some_ne_none value
  obtain ⟨block, hblock⟩ := Option.ne_none_iff_exists'.mp hne
  obtain ⟨value_len, text, hmeasured, hgranted_value, hdecode, htext⟩ := hround.value block hblock
  have hleft : e.rendered.length + (rendered es).length - 1 - e.name.length - 1 =
      value.rendered.length + (rendered es).length := by omega
  subst hkey_len
  rw [hleft, value.measured hbehind (rendered_ends es post value.rendered.length),
    Except.ok.injEq] at hmeasured
  subst hmeasured
  refine ⟨⟨hround.granted, hgranted, hgranted_value, trivial⟩, ?_⟩
  by_contra hclear
  have hshort := (value.decoded hbehind (drop_behind hbehind)).2 hclear text hdecode
  have hvalue_len := hkeeps.stands.value_len
  rw [hvalue, htext] at hvalue_len
  exact absurd hvalue_len (Nat.ne_of_lt hshort)

theorem Round.apart
    (hround : Round raw grants p (e.rendered.length + (rendered es).length) key_len item)
    (hraw : raw.drop p = e.rendered ++ (rendered es ++ post)) (hkeeps : Keeps item e) :
    Granted grants e.requests ∧ e.Apart es post := by
  match hvalue : e.value with
  | none =>
    rw [Extension.apart_none hvalue]
    exact hround.last hraw hkeeps hvalue
  | some value =>
    rw [Extension.apart_some hvalue]
    exact hround.clear hraw hkeeps hvalue

end Keeps

theorem extentions_loop_iff (hp : p ≤ raw.length) (hraw : raw.drop p = rendered es ++ post)
    (hfuel : (rendered es).length < fuel) :
    (∃ self' items, extentions_loop raw fuel self p (rendered es).length = .ok self' ∧
      self'.meta_read = self.meta_read ++ items ∧ List.Forall₂ Keeps items es) ↔
      Granted self.grants (es.flatMap Extension.requests) ∧ Separate post es := by
  induction es generalizing self p fuel with
  | nil =>
    obtain ⟨n, rfl⟩ : ∃ n, fuel = n + 1 := ⟨fuel - 1, by omega⟩
    refine ⟨fun _ => ⟨trivial, trivial⟩, fun _ => ⟨self, [], ?_, (List.append_nil _).symm, .nil⟩⟩
    rw [extentions_loop, if_pos (by rfl)]
    rfl
  | cons e es ih =>
    rw [rendered_cons, List.length_append] at hfuel ⊢
    rw [rendered_cons, List.append_assoc] at hraw
    rw [List.flatMap_cons, granted_append]
    have hpos : 0 < e.rendered.length := Nat.succ_pos _
    obtain ⟨n, rfl⟩ : ∃ n, fuel = n + 1 := ⟨fuel - 1, by omega⟩
    have hbehind : p + e.rendered.length ≤ raw.length := by
      have := congrArg List.length hraw
      rw [List.length_drop, List.length_append] at this
      omega
    have hn : (rendered es).length < n := by omega
    constructor
    · rintro ⟨self', items, hrun, hmeta, hkeeps⟩
      obtain ⟨item, items', hitem, hitems, rfl⟩ := List.forall₂_cons_right_iff.mp hkeeps
      obtain ⟨key_len, hround⟩ := first_round hrun hmeta
      obtain ⟨hgranted, hapart⟩ := hround.apart hraw hitem
      obtain ⟨item', -, hstep⟩ :=
        extentions_loop_apart hp (Nat.zero_lt_of_lt hn) hraw hgranted hapart
      rw [hstep] at hrun
      have hfront := extentions_loop_appends hrun
      rw [hmeta] at hfront
      obtain ⟨hsame, -⟩ := List.cons_prefix_cons.mp ((List.prefix_append_right_inj _).mp hfront)
      rw [hsame] at hrun
      have hlater := (ih hbehind (drop_behind hraw) hn).mp
        ⟨self', items', hrun, by rw [hmeta, List.append_assoc]; rfl, hitems⟩
      exact ⟨⟨hgranted, hlater.1⟩, hapart, hlater.2⟩
    · rintro ⟨⟨hgranted, hgranted'⟩, hapart, hseparate⟩
      obtain ⟨item, hitem, hstep⟩ :=
        extentions_loop_apart hp (Nat.zero_lt_of_lt hn) hraw hgranted hapart
      let taken :=
        { self with meta_read := self.meta_read ++ [item], grants := asked self.grants e.requests }
      have htaken : Granted taken.grants (es.flatMap Extension.requests) := hgranted'
      obtain ⟨self', items, hrun, hmeta, hitems⟩ :=
        (ih hbehind (drop_behind hraw) hn).mpr ⟨htaken, hseparate⟩
      refine ⟨self', item :: items, hstep.trans hrun, ?_, .cons hitem hitems⟩
      rw [hmeta, List.append_assoc]
      rfl

end Loop

/-- **The grammar.** The items of a text are its extensions if and only if there is memory for them,
nothing stands behind an extension without a value, and no token is followed by a `;` where the
reader looks for one. -/
theorem extensions_read_iff (self : httpp_encoding_t) (es : List Extension) (pre post : Bytes) :
    (∃ self' items,
      enc_chunked_read_extentions self (pre ++ (rendered es ++ post)) pre.length
        (rendered es).length = .ok self' ∧
      self'.meta_read = self.meta_read ++ items ∧ List.Forall₂ Keeps items es) ↔
      Granted self.grants (es.flatMap Extension.requests) ∧ Separate post es :=
  extentions_loop_iff (by simp) List.drop_left (Nat.lt_succ_self _)

/-- `;name=text` -/
def assigned (name text : String) (hname : Token (ascii name))
    (htext : Token (ascii text) ∧ BACKSLASH ∉ ascii text) : Extension :=
  ⟨ascii name, hname, some (.token (ascii text) htext.1 htext.2)⟩

/-- `;a;b=c` -/
def valueless : List Extension :=
  [⟨ascii "a", by decide +kernel, none⟩, assigned "b" "c" (by decide +kernel) (by decide +kernel)]

/-- `;a=wxyz;b=1;c=2` -/
def followed : List Extension :=
  [assigned "a" "wxyz" (by decide +kernel) (by decide +kernel),
    assigned "b" "1" (by decide +kernel) (by decide +kernel),
    assigned "c" "2" (by decide +kernel) (by decide +kernel)]

/-- An extension without a value takes the next one into its key, and a token is lost. -/
theorem extensions_lost :
    let fresh := chunked_encoding fun _ _ _ => true
    let Read (es : List Extension) := ∃ self' items,
      enc_chunked_read_extentions fresh (rendered es ++ crlf) 0 (rendered es).length = .ok self' ∧
      self'.meta_read = fresh.meta_read ++ items ∧ List.Forall₂ Keeps items es
    ¬ Read valueless ∧ ¬ Read followed := by
  have hbad {es : List Extension} (hes : ¬ Separate crlf es) : ¬ ∃ self' items,
      enc_chunked_read_extentions (chunked_encoding fun _ _ _ => true) (rendered es ++ crlf) 0
        (rendered es).length =
        .ok self' ∧ self'.meta_read = [] ++ items ∧ List.Forall₂ Keeps items es := fun h =>
    hes ((extentions_loop_iff (Nat.zero_le _) rfl (Nat.lt_succ_self _)).mp h).2
  exact ⟨hbad (by decide), hbad (by decide)⟩

example :
    (enc_chunked_read_extentions (chunked_encoding fun _ _ _ => true)
      (rendered valueless ++ crlf) 0 6).map
    (·.meta_read.map (·.key)) = .ok [some (ascii "a;b" ++ [0])] := by
  decide

end Encoding
