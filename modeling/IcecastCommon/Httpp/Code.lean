import IcecastCommon.Avl.Code
import IcecastCommon.Lib.Hex
import IcecastCommon.Lib.Strings

/-!
# The code of `httpp/httpp.c`

The functions keep the names of the source, and the steps of `httpp_parse` and
`httpp_parse_response` are functions of their own. The copy of the request is a block that is
overwritten in place. Allocations of strings do not fail, those of `httpp_get_any_key` apart.
-/

namespace Httpp

open Lib Avl

/-! ## Records -/

inductive httpp_request_type_e where
  | httpp_req_none
  | httpp_req_get
  | httpp_req_post
  | httpp_req_put
  | httpp_req_head
  | httpp_req_options
  | httpp_req_delete
  | httpp_req_trace
  | httpp_req_connect
  | httpp_req_source
  | httpp_req_play
  | httpp_req_stats
  | httpp_req_unknown
deriving DecidableEq, Repr

open httpp_request_type_e

def HTTPP_VAR_PROTOCOL : CString := ⟨ascii "__protocol", by decide⟩
def HTTPP_VAR_VERSION : CString := ⟨ascii "__version", by decide⟩
def HTTPP_VAR_URI : CString := ⟨ascii "__uri", by decide⟩
def HTTPP_VAR_RAWURI : CString := ⟨ascii "__rawuri", by decide⟩
def HTTPP_VAR_QUERYARGS : CString := ⟨ascii "__queryargs", by decide⟩
def HTTPP_VAR_REQ_TYPE : CString := ⟨ascii "__req_type", by decide⟩
def HTTPP_VAR_ERROR_MESSAGE : CString := ⟨ascii "__errormessage", by decide⟩
def HTTPP_VAR_ERROR_CODE : CString := ⟨ascii "__errorcode", by decide⟩

def MAX_HEADERS : Nat := 32

/-- A variable. The number of its values and the array `value` points to are one cell of memory. -/
structure http_var_t where
  name : CString
  value : Ptr
deriving DecidableEq

/-- A tree whose keys point to variables, with the memory that holds their values. -/
structure var_tree where
  avl : avl_tree (Option http_var_t) (BitVec 32)
  values : Memory (List CString)

structure http_parser_t where
  req_type : httpp_request_type_e
  uri : Option CString
  vars : var_tree
  queryvars : var_tree
  postvars : var_tree

/-- The names and values that a parser starts with. The list stands for the `next` pointers. -/
abbrev http_varlist_t := List (Option CString × List (Option CString))

instance : HasNull (Option http_var_t) := ⟨none⟩

/-- `strcmp` of the names. No tree compares the NULL in its root. -/
def _compare_vars : Option http_var_t → Option http_var_t → Int
  | none, none => 0
  | none, some _ => -1
  | some _, none => 1
  | some vara, some varb => strcmp vara.name.bytes varb.name.bytes

/-- The memory that held the values of deleted variables. -/
def _free_vars (values : Memory (List CString)) (key : Option http_var_t) :
    C (Memory (List CString)) :=
  match key with
  | none => throw .null
  | some var => values.free var.value

/-! ## Variables -/

namespace var_tree

def insert (tree : var_tree) (var : http_var_t) : C var_tree := do
  let (_, avl) ← avl_insert tree.avl (some var)
  return { tree with avl }

/-- `avl_delete(tree, var, _free_vars)` -/
def delete (tree : var_tree) (var : http_var_t) : C var_tree := do
  let (_, avl, freed) ← avl_delete tree.avl (some var) (some fun _ => 1)
  return { avl, values := ← freed.foldlM _free_vars tree.values }

end var_tree

def _httpp_get_param_var (tree : var_tree) (name : CString) : C (Option http_var_t) := do
  let (ret, found) ← avl_get_by_key tree.avl (some { name, value := none })
  if ret = 0 then
    match found with
    | some found => return found
    | none => throw .null
  else return none

def _httpp_get_param (tree : var_tree) (name : CString) : C (Option CString) := do
  match ← _httpp_get_param_var tree name with
  | none => return none
  | some res => return (← tree.values.load res.value).head?

def _httpp_set_param_nocopy (tree : var_tree) (name value : Option CString) (replace : Bool) :
    C var_tree := do
  match name, value with
  | some name, some value =>
    match replace, ← _httpp_get_param_var tree name with
    | false, some found =>
      return { tree with values := ← tree.values.update found.value (· ++ [value]) }
    | _, found =>
      match tree.values.malloc [value] with
      | (none, values) => return { tree with values }
      | (some cell, values) =>
        let var : http_var_t := { name, value := some cell }
        let tree := { tree with values }
        match found with
        | some found => (← tree.delete found).insert var
        | none => tree.insert var
  | _, _ => return tree

def httpp_getvar (parser : http_parser_t) (name : Option CString) : C (Option CString) := do
  match name with
  | none => return none
  | some name => _httpp_get_param parser.vars name

def httpp_setvar (parser : http_parser_t) (name value : Option CString) : C http_parser_t := do
  match name, value with
  | some name, some value =>
    match parser.vars.values.malloc [value] with
    | (none, values) => return { parser with vars := { parser.vars with values } }
    | (some cell, values) =>
      let var : http_var_t := { name, value := some cell }
      let vars := { parser.vars with values }
      if (← httpp_getvar { parser with vars } (some name)) = none then
        return { parser with vars := ← vars.insert var }
      else
        return { parser with vars := ← (← vars.delete var).insert var }
  | _, _ => return parser

def httpp_deletevar (parser : http_parser_t) (name : Option CString) : C http_parser_t := do
  match name with
  | none => return parser
  | some name => return { parser with vars := ← parser.vars.delete { name, value := none } }

/-- The addresses the allocator would like to hand out. It never fails. -/
structure Pool where
  nodes : Nat → Nat
  values : Nat → Nat

def var_tree.new (pool : Pool) : C var_tree :=
  match avl_tree_new _compare_vars ⟨∅, fun n => some (pool.nodes n)⟩ with
  | some avl => return { avl, values := ⟨∅, fun n => some (pool.values n)⟩ }
  | none => throw .null

/-- `httpp_create_parser` -/
def httpp_create (vars queryvars postvars : Pool) : C http_parser_t :=
  return {
    req_type := httpp_req_none
    uri := none
    vars := ← var_tree.new vars
    queryvars := ← var_tree.new queryvars
    postvars := ← var_tree.new postvars }

def httpp_initialize (parser : http_parser_t) (defaults : http_varlist_t) : C http_parser_t :=
  defaults.foldlM (fun parser var =>
    var.2.foldlM (fun parser value => httpp_setvar parser var.1 value) parser) parser

/-! ## Queries -/

def hex (c : Byte) : Int :=
  if ch '0' ≤ c ∧ c ≤ ch '9' then c.toNat - (ch '0').toNat
  else if ch 'A' ≤ c ∧ c ≤ ch 'F' then c.toNat - (ch 'A').toNat + 10
  else if ch 'a' ≤ c ∧ c ≤ ch 'f' then c.toNat - (ch 'a').toNat + 10
  else -1

/-- The loop over the text at `src`. Every round takes a byte at least. -/
def unescape_loop (block : Bytes) (src len : Nat) : Nat → Nat → Bytes → C (Option Bytes)
  | 0, _, dst => return some dst
  | fuel + 1, i, dst => do
    if i < len then
      let c ← read block (src + i)
      if c = ch '%' then
        if i + 2 ≥ len then return none
        let hi := hex (← read block (src + (i + 1)))
        let lo := hex (← read block (src + (i + 2)))
        if hi = -1 ∨ lo = -1 then return none
        unescape_loop block src len fuel (i + 3) (dst ++ [UInt8.ofNat (hi * 16 + lo).toNat])
      else if c = ch '+' then unescape_loop block src len fuel (i + 1) (dst ++ [ch ' '])
      else if c = ch '#' then return some dst
      else if c = 0 then return none
      else unescape_loop block src len fuel (i + 1) (dst ++ [c])
    else return some dst

/-- The block of the decoded bytes, with the NUL behind them. -/
def url_unescape (block : Bytes) (src len : Nat) : C (Option Bytes) :=
  return (← unescape_loop block src len len 0 []).map (· ++ [0])

def parse_query_element (tree : var_tree) (query : Bytes) (start : Nat) (mid : Option Nat)
    (end_ : Nat) : C var_tree := do
  if start ≥ end_ then return tree
  match mid with
  | none => return tree
  | some mid =>
    let keylen := size_sub mid start
    let valuelen := size_sub (size_sub end_ mid) 1
    if keylen = 0 ∨ valuelen = 0 then return tree
    let key := (← slice query start keylen) ++ [0]
    let value ← url_unescape query (mid + 1) valuelen
    _httpp_set_param_nocopy tree (some (← string_at key 0)) (← value.mapM (string_at · 0)) false

def parse_query_loop (query : Bytes) :
    Nat → Nat → var_tree → Nat → Option Nat → C (var_tree × Nat × Option Nat)
  | 0, _, tree, start, mid => return (tree, start, mid)
  | n + 1, i, tree, start, mid => do
    let c ← read query i
    if c = ch '&' then
      parse_query_loop query n (i + 1) (← parse_query_element tree query start mid i) (i + 1) none
    else if c = ch '=' then parse_query_loop query n (i + 1) tree start (some i)
    else parse_query_loop query n (i + 1) tree start mid

def parse_query (tree : var_tree) (query : Option Bytes) (len : Nat) : C var_tree := do
  match query with
  | none => return tree
  | some query =>
    if (← read query 0) = 0 then return tree
    let (tree, start, mid) ← parse_query_loop query len 0 tree 0 none
    parse_query_element tree query start mid len

def httpp_parse_postdata (parser : http_parser_t) (body_data : Option Bytes) (len : Nat) :
    C (Int × http_parser_t) := do
  match ← httpp_getvar parser (some ⟨ascii "content-type", by decide⟩) with
  | none => throw .null
  | some header =>
    if strcasecmp header.bytes (ascii "application/x-www-form-urlencoded") ≠ 0 then
      return (-1, parser)
    return (0, { parser with postvars := ← parse_query parser.postvars body_data len })

def _httpp_set_param (tree : var_tree) (name value : Option CString) : C var_tree := do
  match name, value with
  | some name, some value =>
    let text ← url_unescape value.block 0 value.bytes.length
    _httpp_set_param_nocopy tree (some name) (← text.mapM (string_at · 0)) true
  | _, _ => return tree

def httpp_set_query_param (parser : http_parser_t) (name value : Option CString) :
    C http_parser_t :=
  return { parser with queryvars := ← _httpp_set_param parser.queryvars name value }

def httpp_set_post_param (parser : http_parser_t) (name value : Option CString) : C http_parser_t :=
  return { parser with postvars := ← _httpp_set_param parser.postvars name value }

def httpp_get_query_param (parser : http_parser_t) (name : CString) : C (Option CString) :=
  _httpp_get_param parser.queryvars name

def httpp_get_post_param (parser : http_parser_t) (name : CString) : C (Option CString) :=
  _httpp_get_param parser.postvars name

def httpp_get_param_var (parser : http_parser_t) (name : CString) : C (Option http_var_t) := do
  match ← _httpp_get_param_var parser.postvars name with
  | some ret => return some ret
  | none => _httpp_get_param_var parser.queryvars name

def httpp_get_param (parser : http_parser_t) (name : CString) : C (Option CString) := do
  match ← _httpp_get_param parser.postvars name with
  | some ret => return some ret
  | none => _httpp_get_param parser.queryvars name

/-! ## Namespaces -/

inductive httpp_ns_t where
  | HTTPP_NS_VAR
  | HTTPP_NS_HEADER
  | HTTPP_NS_QUERY_STRING
  | HTTPP_NS_POST_BODY
deriving DecidableEq, Repr

open httpp_ns_t

def httpp_get_any_var (parser : http_parser_t) (ns : httpp_ns_t) (name : Option CString) :
    C (Option http_var_t) := do
  match name with
  | none => return none
  | some name =>
    match ns with
    | HTTPP_NS_VAR =>
      if (← read name.block 0) ≠ ch '_' then return none
      if (← read name.block 1) ≠ ch '_' then return none
      _httpp_get_param_var parser.vars name
    | HTTPP_NS_HEADER =>
      if (← read name.block 0) = ch '_' then
        if (← read name.block 1) = ch '_' then return none
      _httpp_get_param_var parser.vars name
    | HTTPP_NS_QUERY_STRING => _httpp_get_param_var parser.queryvars name
    | HTTPP_NS_POST_BODY => _httpp_get_param_var parser.postvars name

/-- An array of names with all its cells. -/
abbrev any_keys := List (Option CString)

/-- `for (p = keys; *p; p++)` -/
def httpp_free_any_key : any_keys → C Unit
  | [] => throw .bounds
  | none :: _ => return ()
  | some _ :: keys => httpp_free_any_key keys

def store_key (ret : any_keys) (pos : Nat) (key : Option CString) : C any_keys :=
  if pos < ret.length then return ret.set pos key else throw .bounds

/-- Whether `httpp_get_any_key` goes on to the next variable at once. -/
def any_key_continue (ns : httpp_ns_t) (name : CString) : C Bool := do
  match ns with
  | HTTPP_NS_VAR =>
    if (← read name.block 0) ≠ ch '_' then return true
    return (← read name.block 1) ≠ ch '_'
  | HTTPP_NS_HEADER =>
    if (← read name.block 0) = ch '_' then return (← read name.block 1) = ch '_'
    return false
  | _ => return false

/-- The loop over the nodes. `granted` has the answers of the next allocations, and `len` is the
length of `ret`. -/
def any_key_loop (ns : httpp_ns_t) (m : Memory (avl_node (Option http_var_t) (BitVec 32))) :
    Nat → (Nat → Bool) → any_keys → Nat → Ptr → C (Option any_keys)
  | 0, _, _, _, _ => throw .endless
  | fuel + 1, granted, ret, pos, avlnode => do
    match avlnode with
    | none => return some ret
    | some _ =>
      match (← m.load avlnode).key with
      | none => throw .null
      | some var =>
        if ← any_key_continue ns var.name then
          any_key_loop ns m fuel granted ret pos (← avl_get_next m avlnode)
        else
          let full := pos = ret.length - 1
          if full ∧ granted 0 = false then
            httpp_free_any_key ret
            return none
          let ret := if full then ret ++ List.replicate 8 none else ret
          let granted := if full then fun n => granted (n + 1) else granted
          let ret ← store_key ret pos (if granted 0 then some var.name else none)
          if granted 0 = false then
            httpp_free_any_key ret
            return none
          any_key_loop ns m fuel (fun n => granted (n + 1)) ret (pos + 1) (← avl_get_next m avlnode)

def httpp_get_any_key (parser : http_parser_t) (ns : httpp_ns_t) (granted : Nat → Bool) :
    C (Option any_keys) := do
  let tree := match ns with
    | HTTPP_NS_VAR => parser.vars
    | HTTPP_NS_HEADER => parser.vars
    | HTTPP_NS_QUERY_STRING => parser.queryvars
    | HTTPP_NS_POST_BODY => parser.postvars
  if granted 0 = false then return none
  let m := tree.avl.mem
  any_key_loop ns m (m.size + 1) (fun n => granted (n + 1)) (List.replicate 8 none) 0
    (← avl_get_first tree.avl)

/-! ## Lines -/

/-- `line[k] = p`. The pointers of `line` are set one by one. -/
def set_line (line : Nat → Option Nat) (k p : Nat) : C (Nat → Option Nat) :=
  if k < MAX_HEADERS then return Function.update line k (some p) else throw .bounds

def get_line (line : Nat → Option Nat) (k : Nat) : C Nat :=
  match line k with
  | some p => return p
  | none => throw .bounds

/-- The loop of `split_headers`, with some of the `len` bytes to go. -/
def split_loop (len : Nat) :
    Nat → Nat → Bytes → (Nat → Option Nat) → Nat → C (Bytes × (Nat → Option Nat) × Nat)
  | 0, _, data, line, lines => return (data, line, lines)
  | n + 1, i, data, line, lines => do
    if lines < MAX_HEADERS then
      let data ← if (← read data i) = CR then store data i 0 else pure data
      if (← read data i) = LF then
        let lines := lines + 1
        let data ← store data i 0
        if lines ≥ MAX_HEADERS then return (data, line, MAX_HEADERS)
        if i + 1 < len then
          let next ← read data (i + 1)
          if next = LF ∨ next = CR then return (data, line, lines)
          split_loop len n (i + 1) data (← set_line line lines (i + 1)) lines
        else split_loop len n (i + 1) data line lines
      else split_loop len n (i + 1) data line lines
    else return (data, line, lines)

/-- The text, the pointers and their number. -/
def split_headers (data : Bytes) (len : Nat) : C (Bytes × (Nat → Option Nat) × Nat) := do
  let line ← set_line (fun _ => none) 0 0
  split_loop len len 0 data line 0

/-- `while (i < slen && line[l][i] == ' ') i++;` -/
def skip_spaces (data : Bytes) (line : Nat) : Nat → Nat → C Nat
  | 0, i => return i
  | n + 1, i => do
    if (← read data (line + i)) = ch ' ' then skip_spaces data line n (i + 1) else return i

/-- The loop over one line, with `slen - i` bytes to go. The text and the value. -/
def header_loop (line slen : Nat) : Nat → Nat → Bool → Bytes → C (Bytes × Option Nat)
  | 0, _, _, data => return (data, none)
  | n + 1, i, whitespace, data => do
    if (← read data (line + i)) = ch ':' then
      header_loop line slen n (i + 1) true (← store data (line + i : Nat) 0)
    else if whitespace then
      let i ← skip_spaces data line (n + 1) i
      return (data, if i < slen then some (line + i) else none)
    else header_loop line slen n (i + 1) false data

def _lowercase (data : Bytes) (str : Nat) : Nat → C Bytes
  | 0 => throw .endless
  | fuel + 1 => do
    let c ← read data str
    if c = 0 then return data else _lowercase (← store data str (tolower c)) (str + 1) fuel

/-- One line. The text and the parser. -/
def parse_header (data : Bytes) (name : Nat) (parser : http_parser_t) :
    C (Bytes × http_parser_t) := do
  let slen ← int_strlen data name
  let (data, value) ← header_loop name slen.toNat slen.toNat 0 false data
  match value with
  | none => return (data, parser)
  | some value =>
    let data ← _lowercase data name data.length
    return (data,
      ← httpp_setvar parser (some (← string_at data name)) (some (← string_at data value)))

/-- The loop over the lines, with `n` lines to go. -/
def parse_headers_loop (line : Nat → Option Nat) :
    Nat → Nat → Bytes → http_parser_t → C http_parser_t
  | 0, _, _, parser => return parser
  | n + 1, l, data, parser => do
    let (data, parser) ← parse_header data (← get_line line l) parser
    parse_headers_loop line n (l + 1) data parser

def parse_headers (parser : http_parser_t) (data : Bytes) (line : Nat → Option Nat) (lines : Nat) :
    C http_parser_t :=
  parse_headers_loop line (lines - 1) 1 data parser

/-! ## Requests -/

/-- The methods by their names. -/
def methods : List (httpp_request_type_e × CString) :=
  [(httpp_req_get, ⟨ascii "GET", by decide⟩), (httpp_req_post, ⟨ascii "POST", by decide⟩),
    (httpp_req_put, ⟨ascii "PUT", by decide⟩), (httpp_req_head, ⟨ascii "HEAD", by decide⟩),
    (httpp_req_options, ⟨ascii "OPTIONS", by decide⟩),
    (httpp_req_delete, ⟨ascii "DELETE", by decide⟩), (httpp_req_trace, ⟨ascii "TRACE", by decide⟩),
    (httpp_req_connect, ⟨ascii "CONNECT", by decide⟩),
    (httpp_req_source, ⟨ascii "SOURCE", by decide⟩), (httpp_req_play, ⟨ascii "PLAY", by decide⟩),
    (httpp_req_stats, ⟨ascii "STATS", by decide⟩)]

def httpp_str_to_method (method : CString) : httpp_request_type_e :=
  match methods.find? fun m => strcasecmp m.2.bytes method.bytes = 0 with
  | some m => m.1
  | none => httpp_req_unknown

/-- The loop over the first line: the text, the URI and the version. None for an extra element. -/
def request_loop (line : Nat) : Nat → Nat → Bool → Nat → Option Nat → Option Nat → Bytes →
    C (Option (Bytes × Option Nat × Option Nat))
  | 0, _, _, _, uri, version, data => return some (data, uri, version)
  | n + 1, i, whitespace, where_, uri, version, data => do
    if (← read data (line + i)) = ch ' ' then
      request_loop line n (i + 1) true where_ uri version (← store data (line + i : Nat) 0)
    else if whitespace then
      match where_ + 1 with
      | 1 => request_loop line n (i + 1) false 1 (some (line + i)) version data
      | 2 => request_loop line n (i + 1) false 2 uri (some (line + i)) data
      | 3 => return none
      | where_ => request_loop line n (i + 1) false where_ uri version data
    else request_loop line n (i + 1) false where_ uri version data

/-! The checks behind the first line. The first result is false where `httpp_parse` returns 0. -/

def parse_uri (parser : http_parser_t) (data : Bytes) (uri : Option Nat) :
    C (Bool × http_parser_t × Bytes) := do
  match uri with
  | none => return (false, parser, data)
  | some uri =>
    if (← string_at data uri).bytes.length > 0 then
      match ← strchr data uri (ch '?') with
      | none => return (true, { parser with uri := some (← string_at data uri) }, data)
      | some query =>
        let parser ← httpp_setvar parser (some HTTPP_VAR_RAWURI) (some (← string_at data uri))
        let parser ← httpp_setvar parser (some HTTPP_VAR_QUERYARGS) (some (← string_at data query))
        let data ← store data query 0
        let query := query + 1
        let queryvars ← parse_query parser.queryvars (some (data.drop query))
          (← string_at data query).bytes.length
        return (true, { parser with queryvars, uri := some (← string_at data uri) }, data)
    else return (false, parser, data)

def parse_version (parser : http_parser_t) (data : Bytes) (version : Option Nat) :
    C (Bool × http_parser_t × Bytes) := do
  match version with
  | none => return (false, parser, data)
  | some version =>
    match ← strchr data version (ch '/') with
    | none => return (false, parser, data)
    | some tmp =>
      let data ← store data tmp 0
      let protocol ← string_at data version
      let number ← string_at data (tmp + 1)
      if protocol.bytes.length > 0 ∧ number.bytes.length > 0 then
        let parser ← httpp_setvar parser (some HTTPP_VAR_PROTOCOL) (some protocol)
        let parser ← httpp_setvar parser (some HTTPP_VAR_VERSION) (some number)
        return (true, parser, data)
      else return (false, parser, data)

def set_req_type (parser : http_parser_t) : C (Bool × http_parser_t) := do
  if parser.req_type ≠ httpp_req_none ∧ parser.req_type ≠ httpp_req_unknown then
    match methods.lookup parser.req_type with
    | some name => return (true, ← httpp_setvar parser (some HTTPP_VAR_REQ_TYPE) (some name))
    | none => return (true, parser)
  else return (false, parser)

def set_uri (parser : http_parser_t) : C (Bool × http_parser_t) := do
  match parser.uri with
  | some uri => return (true, ← httpp_setvar parser (some HTTPP_VAR_URI) (some uri))
  | none => return (false, parser)

/-- `httpp_parse` behind the loop over the first line. -/
def parse_rest (parser : http_parser_t) (data : Bytes) (line : Nat → Option Nat) (lines : Nat)
    (uri version : Option Nat) : C (Int × http_parser_t) := do
  let (more, parser, data) ← parse_uri parser data uri
  if !more then return (0, parser)
  let (more, parser, data) ← parse_version parser data version
  if !more then return (0, parser)
  let (more, parser) ← set_req_type parser
  if !more then return (0, parser)
  let (more, parser) ← set_uri parser
  if !more then return (0, parser)
  return (1, ← parse_headers parser data line lines)

def httpp_parse (parser : http_parser_t) (http_data : Option Bytes) (len : Nat) :
    C (Int × http_parser_t) := do
  match http_data with
  | none => return (0, parser)
  | some http_data =>
    let (data, line, lines) ← split_headers ((← slice http_data 0 len) ++ [0]) len
    let req_type ← get_line line 0
    let slen ← int_strlen data req_type
    match ← request_loop req_type slen.toNat 0 false 0 none none data with
    | none => return (0, parser)
    | some (data, uri, version) =>
      let method ← string_at data req_type
      parse_rest { parser with req_type := httpp_str_to_method method } data line lines uri version

/-! ## Responses -/

/-- The loop over the first line: the text, the code and the message. -/
def response_loop (line : Nat) : Nat → Nat → Bool → Nat → Option Nat → Bytes →
    C (Bytes × Option Nat × Option Nat)
  | 0, _, _, _, resp_code, data => return (data, resp_code, none)
  | n + 1, i, whitespace, where_, resp_code, data => do
    if (← read data (line + i)) = ch ' ' then
      response_loop line n (i + 1) true where_ resp_code (← store data (line + i : Nat) 0)
    else if whitespace then
      match where_ + 1 with
      | 1 => response_loop line n (i + 1) false 1 (some (line + i)) data
      | _ => return (data, resp_code, some (line + i))
    else response_loop line n (i + 1) false where_ resp_code data

/-- The message is kept unless the code stands for success. -/
def set_message (parser : http_parser_t) (data : Bytes) (code : Int) (message : Nat) :
    C http_parser_t := do
  if code < 200 ∨ code ≥ 300 then
    httpp_setvar parser (some HTTPP_VAR_ERROR_MESSAGE) (some (← string_at data message))
  else return parser

def httpp_parse_response (parser : http_parser_t) (http_data : Option Bytes) (len : Nat)
    (uri : Option CString) : C (Int × http_parser_t) := do
  match http_data with
  | none => return (0, parser)
  | some http_data =>
    let (data, line, lines) ← split_headers ((← slice http_data 0 len) ++ [0]) len
    let version ← get_line line 0
    let slen ← int_strlen data version
    let (data, resp_code, message) ← response_loop version slen.toNat 0 false 0 none data
    match resp_code, message with
    | some resp_code, some message =>
      let resp_code ← string_at data resp_code
      let parser ← httpp_setvar parser (some HTTPP_VAR_ERROR_CODE) (some resp_code)
      let parser ← set_message parser data (atoi resp_code.bytes) message
      let parser ← httpp_setvar parser (some HTTPP_VAR_URI) uri
      let parser ← httpp_setvar parser (some HTTPP_VAR_REQ_TYPE) (some ⟨ascii "NONE", by decide⟩)
      return (1, ← parse_headers parser data line lines)
    | _, _ => return (0, parser)

/-! ## The lifetime of a parser -/

/-- What is left of the memory of a tree. -/
structure Remains where
  nodes : Memory (avl_node (Option http_var_t) (BitVec 32))
  values : Memory (List CString)

/-- `avl_tree_free(tree, _free_vars)` -/
def var_tree.free (tree : var_tree) : C Remains := do
  let (nodes, freed) ← avl_tree_free tree.avl (some fun _ => 1)
  return { nodes, values := ← freed.foldlM _free_vars tree.values }

/-- What is left of the three trees. -/
def httpp_clear (parser : http_parser_t) : C (List Remains) :=
  [parser.vars, parser.queryvars, parser.postvars].mapM var_tree.free

/-- A parser and the number of those who use it. -/
structure parser_ref where
  refc : BitVec 64
  parser : http_parser_t

/-- `httpp_create_parser`, with the counter. -/
def httpp_create_counted (vars queryvars postvars : Pool) : C parser_ref :=
  return { refc := 1, parser := ← httpp_create vars queryvars postvars }

def httpp_addref (self : parser_ref) : Int × parser_ref := (0, { self with refc := self.refc + 1 })

/-- The parser, or what is left of it when nobody uses it any more. -/
def httpp_release (self : parser_ref) : C (Int × (parser_ref ⊕ List Remains)) := do
  let self := { self with refc := self.refc - 1 }
  if self.refc ≠ 0 then return (0, .inl self)
  return (0, .inr (← httpp_clear self.parser))

end Httpp
