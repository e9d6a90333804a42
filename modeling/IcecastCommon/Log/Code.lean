import IcecastCommon.Lib.Heap
import IcecastCommon.Lib.Strings

/-!
# The code of `log/log.c`

The functions keep the names of the source. What the C library answers to the calls of a run is a
parameter of its first state, and what the run asks of it is recorded. The mutex is left out: the
calls of a run come one after the other.
-/

namespace Log

open Lib

def LOG_EINSANE : Int := -1
def LOG_ENOMORELOGS : Int := -2

def LOG_MAXLOGS : Nat := 25
def LOG_MAXLINELEN : Nat := 1024

/-! ## Data -/

/-- The block of a line is part of its entry, since both are allocated and freed together. -/
structure log_entry_t where
  line : Bytes
  len : Nat
  next : Ptr
deriving DecidableEq, Repr

/-- Where `log_tail` points to. -/
inductive Tail where
  | log_head (id : Nat)
  | next (entry : Nat)
deriving DecidableEq, Repr

abbrev FILE := Nat

structure log_t where
  in_use : Bool
  level : Nat
  filename : Option CString
  logfile : Option FILE
  size : Int
  trigger_level : Int
  archive_timestamp : Int
  total : Nat
  entries : Nat
  keep_entries : Nat
  log_head : Ptr
  log_tail : Tail

/-- What the program does to files. -/
inductive Event where
  | fclose (file : FILE)
  | rename (filename new_name : Bytes)
  | fopen (filename : CString)
  | fprintf (file : FILE) (text : Bytes)
deriving DecidableEq

/-- The answers to the next calls: whether there is memory, which file is opened, the size of a
file, what `fprintf` returns for a text, and the date that `strftime` stores. -/
structure Answers where
  calloc : Nat → Bool
  malloc : Nat → Bool
  strdup : Nat → Bool
  fopen : Nat → Option FILE
  stat : Nat → Option Nat
  fprintf : Nat → Bytes → Int
  strftime : Nat → CString

structure Logger where
  loglist : Nat → log_t
  heap : Heap log_entry_t
  answers : Answers
  events : List Event

/-- `loglist[id]` is changed. -/
def Logger.put (w : Logger) (id : Nat) (f : log_t → log_t) : Logger :=
  { w with loglist := Function.update w.loglist id (f (w.loglist id)) }

def Logger.record (w : Logger) (event : Event) : Logger := { w with events := w.events ++ [event] }

/-! ## The C library -/

def Logger.calloc (w : Logger) : Bool × Logger :=
  (w.answers.calloc 0,
    { w with answers := { w.answers with calloc := fun n => w.answers.calloc (n + 1) } })

/-- No object has 2^63 bytes. -/
def Logger.malloc (w : Logger) (size : Nat) : Bool × Logger :=
  (w.answers.malloc 0 && size < 2 ^ 63,
    { w with answers := { w.answers with malloc := fun n => w.answers.malloc (n + 1) } })

def Logger.strdup (w : Logger) (s : CString) : Option CString × Logger :=
  (if w.answers.strdup 0 then some s else none,
    { w with answers := { w.answers with strdup := fun n => w.answers.strdup (n + 1) } })

def Logger.fopen (w : Logger) (filename : CString) : Option FILE × Logger :=
  (w.answers.fopen 0,
    { w with answers := { w.answers with fopen := fun n => w.answers.fopen (n + 1) } }.record
      (.fopen filename))

/-- The size, if `stat` succeeds. -/
def Logger.stat (w : Logger) : Option Nat × Logger :=
  (w.answers.stat 0,
    { w with answers := { w.answers with stat := fun n => w.answers.stat (n + 1) } })

def Logger.strftime (w : Logger) : CString × Logger :=
  (w.answers.strftime 0,
    { w with answers := { w.answers with strftime := fun n => w.answers.strftime (n + 1) } })

def Logger.fprintf (w : Logger) (file : Option FILE) (text : Bytes) : C (Int × Logger) :=
  match file with
  | none => throw .null
  | some file =>
    return (w.answers.fprintf 0 text,
      { w with answers := { w.answers with fprintf := fun n => w.answers.fprintf (n + 1) } }.record
        (.fprintf file text))

/-- An `unsigned long` as an `int`. -/
def int (n : Nat) : Int := (n : Int).bmod (2 ^ 32)

/-! ## Opening -/

/-- `if (loglist[id].logfile)`: an open file is closed and gets another name. -/
def rotate (w : Logger) (id : Nat) (filename : CString) : Logger :=
  match (w.loglist id).logfile with
  | none => w
  | some file =>
    let w := (w.record (.fclose file)).put id fun log => { log with logfile := none }
    if (w.loglist id).archive_timestamp ≠ 0 then
      let (timestamp, w) := w.strftime
      w.record (.rename filename.bytes ((filename.bytes ++ ch '.' :: timestamp.bytes).take 4095))
    else w.record (.rename filename.bytes ((filename.bytes ++ ascii ".old").take 4095))

def _log_open (w : Logger) (id : Nat) : Int × Logger :=
  let log := w.loglist id
  if ¬ log.in_use then (0, w)
  else if log.logfile = none ∨ (log.trigger_level ≠ 0 ∧ log.size > log.trigger_level) then
    match log.filename with
    | some filename =>
      let (logfile, w) := (rotate w id filename).fopen filename
      let w := w.put id fun log => { log with logfile := logfile }
      if logfile = none then (0, w)
      else
        let (st_size, w) := w.stat
        (1, w.put id fun log => { log with size := st_size.getD 0 })
    | none => (1, w.put id fun log => { log with size := 0 })
  else (1, w)

/-- What `log_initialize` makes of a slot. The field it leaves out is zero from the start. -/
def unused (id : Nat) : log_t :=
  { in_use := false, level := 2, size := 0, trigger_level := 1000000000, archive_timestamp := 0
    filename := none, logfile := none, total := 0, entries := 0, keep_entries := 0
    log_head := none, log_tail := .log_head id }

def log_initialize (answers : Answers) : Logger :=
  { loglist := unused, heap := ⟨[]⟩, answers, events := [] }

def _get_log_id (w : Logger) : Int × Logger :=
  match (List.range LOG_MAXLOGS).find? fun i => ¬ (w.loglist i).in_use with
  | some i => (i, w.put i fun log => { log with in_use := true })
  | none => (-1, w)

def log_open_file (w : Logger) (file : Option FILE) : Int × Logger :=
  if file = none then (LOG_EINSANE, w)
  else
    let (log_id, w) := _get_log_id w
    if log_id < 0 then (LOG_ENOMORELOGS, w)
    else (log_id, w.put log_id.toNat fun log =>
      { log with logfile := file, filename := none, size := 0 })

def log_open (w : Logger) (filename : Option CString) : Int × Logger :=
  match filename with
  | none => (LOG_EINSANE, w)
  | some filename =>
    if filename.bytes = [] then (LOG_EINSANE, w)
    else
      let (file, w) := w.fopen filename
      let (id, w) := log_open_file w file
      if id ≥ 0 then
        let (filename, w) := w.strdup filename
        let w := w.put id.toNat fun log => { log with filename := filename }
        let (st_size, w) := w.stat
        let w := w.put id.toNat fun log =>
          { log with size := (st_size.map Int.ofNat).getD log.size }
        (id, w.put id.toNat fun log =>
          { log with entries := 0, log_head := none, log_tail := .log_head id.toNat })
      else (id, w)

/-! ## Settings -/

/-- The test of every function that takes the number of a log. -/
def valid (log_id : Int) : Bool := ¬ (log_id < 0 ∨ log_id ≥ LOG_MAXLOGS)

/-- The product is an `unsigned`. -/
def log_set_trigger (w : Logger) (id : Int) (trigger : Nat) : Logger :=
  if valid id ∧ (w.loglist id.toNat).in_use then
    w.put id.toNat fun log => { log with trigger_level := ((trigger * 1024 % 2 ^ 32 : Nat) : Int) }
  else w

def log_set_filename (w : Logger) (id : Int) (filename : Option CString) : Int × Logger :=
  if ¬ valid id then (LOG_EINSANE, w)
  else if filename.map CString.bytes = some [] ∨ ¬ (w.loglist id.toNat).in_use then (LOG_EINSANE, w)
  else
    match filename with
    | some filename =>
      let (copy, w) := w.strdup filename
      (id, w.put id.toNat fun log => { log with filename := copy })
    | none => (id, w.put id.toNat fun log => { log with filename := none })

def log_set_archive_timestamp (w : Logger) (id value : Int) : Int × Logger :=
  if ¬ valid id then (LOG_EINSANE, w)
  else (id, w.put id.toNat fun log => { log with archive_timestamp := value })

def log_set_level (w : Logger) (log_id : Int) (level : Nat) : Logger :=
  if valid log_id ∧ (w.loglist log_id.toNat).in_use then
    w.put log_id.toNat fun log => { log with level := level }
  else w

/-! ## Kept lines -/

/-- The first entry is unlinked and freed. -/
def remove_head (w : Logger) (id : Nat) : C Logger := do
  let to_go := (w.loglist id).log_head
  let entry ← w.heap.load to_go
  let heap ← w.heap.free to_go
  return { w with heap := heap }.put id fun log =>
    { log with log_head := entry.next, total := (log.total + 2 ^ 64 - entry.len) % 2 ^ 64 }

/-- `while (entries > count)`. Each round takes one entry. -/
def remove_loop (id count : Nat) : Nat → Logger → C Logger
  | 0, w => return w
  | rounds + 1, w => do
    if (w.loglist id).entries > count then
      let w ← remove_head w id
      remove_loop id count rounds (w.put id fun log => { log with entries := log.entries - 1 })
    else return w

def remove_entries (w : Logger) (id count : Nat) : C Logger :=
  remove_loop id count (w.loglist id).entries w

def log_set_lines_kept (w : Logger) (log_id : Int) (count : Nat) : C Logger :=
  if ¬ valid log_id then return w
  else if ¬ (w.loglist log_id.toNat).in_use then return w
  else
    remove_entries (w.put log_id.toNat fun log => { log with keep_entries := count })
      log_id.toNat count

def log_reopen (w : Logger) (log_id : Int) : Logger :=
  if ¬ valid log_id then w
  else
    match (w.loglist log_id.toNat).filename, (w.loglist log_id.toNat).logfile with
    | some _, some file => (w.record (.fclose file)).put log_id.toNat fun log =>
      { log with logfile := none }
    | _, _ => w

/-- The name is freed, and the pointer to it stays. -/
def log_close (w : Logger) (log_id : Int) : C Logger :=
  if ¬ valid log_id then return w
  else if ¬ (w.loglist log_id.toNat).in_use then return w
  else
    let w := w.put log_id.toNat fun log => { log with in_use := false, level := 2 }
    let w := match (w.loglist log_id.toNat).logfile with
      | some file => (w.record (.fclose file)).put log_id.toNat fun log =>
        { log with logfile := none }
      | none => w
    remove_entries w log_id.toNat 0

/-- `snprintf(buf + ptr, size, "%s", text)` into a block of `room` bytes. -/
def snprintf (room : Nat) (buf : Bytes) (ptr size : Nat) (text : Bytes) : C Bytes :=
  if size = 0 then return buf
  else
    let out := text.take (size - 1) ++ [0]
    if ptr + out.length ≤ room then
      return buf.take ptr ++ out ++ buf.drop (ptr + out.length)
    else
      throw .bounds

/-- `*log_tail = entry` -/
def store_tail (w : Logger) (id : Nat) (entry : Nat) : C Logger :=
  match (w.loglist id).log_tail with
  | .log_head i => return w.put i fun log => { log with log_head := some entry }
  | .next a => do
    let heap ← w.heap.update (some a) fun e => { e with next := some entry }
    return { w with heap := heap }

/-- From `*log_tail = entry` on. -/
def link_entry (w : Logger) (log_id entry len : Nat) : C (Int × Logger) := do
  let w ← store_tail w log_id entry
  let w := w.put log_id fun log => { log with log_tail := .next entry }
  if (w.loglist log_id).entries ≥ (w.loglist log_id).keep_entries then
    return (len, ← remove_head w log_id)
  else
    -- Below `keep_entries`, the counter does not wrap.
    return (len, w.put log_id fun log => { log with entries := log.entries + 1 })

def create_log_entry (w : Logger) (log_id : Nat) (pre line : CString) : C (Int × Logger) :=
  let text := pre.bytes ++ line.bytes ++ [LF]
  if (w.loglist log_id).keep_entries = 0 then w.fprintf (w.loglist log_id).logfile text
  else
    let len := (pre.bytes.length + line.bytes.length + 2) % 2 ^ 32
    match w.calloc with
    | (false, _) => throw .null
    | (true, w) => match w.malloc len with
      | (false, _) => throw .null
      | (true, w) => do
        let buf ← snprintf len [] 0 len text
        let (entry, heap) := w.heap.alloc { line := buf, len, next := none }
        let w := { w with heap := heap }.put log_id fun log =>
          { log with total := (log.total + len) % 2 ^ 64 }
        let (_, w) ← w.fprintf (w.loglist log_id).logfile (← cstring buf)
        link_entry w log_id entry len

/-! ## Reading the kept lines -/

/-- `while (entry)`, for at most `fuel` entries. -/
def contents_loop (heap : Heap log_entry_t) (room : Nat) : Nat → Ptr → Bytes → Nat → Int → C Bytes
  | _, none, buf, _, _ => return buf
  | 0, some _, _, _, _ => throw .endless
  | fuel + 1, some a, buf, ptr, remain => do
    let entry ← heap.load (some a)
    let text ← cstring entry.line
    let buf ← snprintf room buf ptr (remain % 2 ^ 64).toNat text
    if text.length > 0 then
      contents_loop heap room fuel entry.next buf (ptr + text.length) (remain - text.length)
    else contents_loop heap room fuel entry.next buf ptr remain

/-- The bytes that are stored at `*_contents`, with `*_len`. `none` if nothing is returned. -/
def log_contents (w : Logger) (log_id : Int) : C (Option (Bytes × Nat) × Logger) :=
  if ¬ valid log_id then return (none, w)
  else
    let log := w.loglist log_id.toNat
    let remain := int (log.total + 1)
    let room := (remain % 2 ^ 64).toNat
    match w.malloc room with
    | (false, _) => throw .null
    | (true, w) =>
      if room = 0 then throw .bounds
      else do
        let buf ← contents_loop w.heap room (w.heap.size + 1) log.log_head [0] 0 remain
        return (some (buf, log.total % 2 ^ 32), w)

/-! ## Writing -/

/-- What `__vsnprintf` leaves in `line`. -/
structure Line where
  text : CString
  fits : text.bytes.length < LOG_MAXLINELEN

/-- The common end of both functions. -/
def write_line (w : Logger) (id : Nat) (pre : CString) (line : Line) : C Logger :=
  let (opened, w) := _log_open w id
  if opened = 0 then return w
  else do
    let (len, w) ← create_log_entry w id pre line.text
    return if len > 0 then w.put id fun log => { log with size := log.size + len } else w

def prior : List Bytes := [ascii "EROR", ascii "WARN", ascii "INFO", ascii "DBUG"]

/-- What is in `pre` behind `snprintf`. -/
def pre_of (date : CString) (priority : Nat) (cat func : CString) : CString :=
  CString.cut
    ((date.bytes ++ ascii " " ++ prior.getD (priority - 1) [] ++ ascii " " ++ cat.bytes ++
      func.bytes ++ ascii " ").take 255)

def log_write (w : Logger) (log_id : Int) (priority : Nat) (cat func : CString)
    (line : Line) : C Logger :=
  if ¬ valid log_id then return w
  else if (w.loglist log_id.toNat).level < priority then return w
  else if priority = 0 ∨ priority > prior.length then return w
  else
    let (date, w) := w.strftime
    write_line w log_id.toNat (pre_of date priority cat func) line

def log_write_direct (w : Logger) (log_id : Int) (line : Line) : C Logger :=
  if ¬ valid log_id then return w
  else write_line w log_id.toNat (CString.cut []) line

end Log
