import IcecastCommon.Lib.Hex

/-!
# The code of `net/sock.c`

Of the operating system, only its answers are modelled.
-/

namespace Net

open Lib

/-! ## Reading -/

/-- The bytes that are still to be received one by one, and what `recv` returns when there are no
more. -/
structure Socket where
  stream : Bytes
  ended : Int
  none_left : ended ≤ 0

/-- `recv(sock, &c, 1, 0)` -/
def recv (sock : Socket) (c : Byte) : Int × Byte × Socket :=
  match sock.stream with
  | [] => (sock.ended, c, sock)
  | b :: stream => (1, b, { sock with stream := stream })

/-- The loop of `sock_read_line`, with `read_bytes`, `pos`, the buffer and the socket behind it. -/
def read_loop (len : Int) : Nat → Byte → Int → Int → Bytes → Socket → C (Int × Int × Bytes × Socket)
  | 0, _, _, _, _, _ => throw .endless
  | fuel + 1, c, read_bytes, pos, buff, sock => do
    if c ≠ LF ∧ pos < len ∧ read_bytes = 1 then
      let (buff, pos) ← if c ≠ CR then do pure (← store buff pos c, pos + 1) else pure (buff, pos)
      let (read_bytes, c, sock) := recv sock c
      read_loop len fuel c read_bytes pos buff sock
    else return (read_bytes, pos, buff, sock)

/-- What it returns, and what it leaves in the buffer. -/
def sock_read_line (sock : Socket) (buff : Option Bytes) (len : Int) :
    C (Int × Option Bytes × Socket) :=
  match buff with
  | none => return (0, none, sock)
  | some buff =>
    if len ≤ 0 then return (0, some buff, sock)
    else do
      let (read_bytes, c, sock) := recv sock 0
      if read_bytes < 0 then return (0, some buff, sock)
      else
        let (read_bytes, pos, buff, sock) ←
          read_loop len (sock.stream.length + 2) c read_bytes 0 buff sock
        if read_bytes = 1 then
          return (1, some (← store buff pos 0), sock)
        else
          return (0, some buff, sock)

/-! ## Writing without `writev` -/

/-- `struct iovec`. -/
structure Iovec where
  iov_base : Option Bytes
  iov_len : Nat
  inside : ∀ block ∈ iov_base, iov_len ≤ block.length

/-- What has been sent, and what `send` answers from now on: an error, or how much it would take. -/
structure Outlet where
  sent : Bytes
  answers : Nat → Option Nat

/-- `send(sock, data, len, 0)` -/
def send (sock : Outlet) (data : Bytes) : Int × Outlet :=
  let rest := fun call => sock.answers (call + 1)
  match sock.answers 0 with
  | none => (-1, { sock with answers := rest })
  | some n => ((min n data.length : Nat), { sent := sock.sent ++ data.take n, answers := rest })

def sock_write_bytes (sock : Outlet) (buff : Option Bytes) (len : Nat) : C (Int × Outlet) :=
  match buff with
  | none => return (-1, sock)
  | some block =>
    if len ≤ 0 then return (-1, sock)
    else do
      let (ret, sock) := send sock (← slice block 0 len)
      return (ret.bmod (2 ^ 32), sock)

/-- The loop of `sock_writev`, with `i`, `accum` and the socket. The entries from `v` on. -/
def writev_loop : List Iovec → Int → Int → Outlet → C (Int × Outlet)
  | v, i, accum, sock =>
    if i = 0 then return (accum, sock)
    else
      match v with
      | [] => throw .bounds
      | v :: rest =>
        if v.iov_base.isSome ∧ v.iov_len ≠ 0 then do
          let (ret, sock) ← sock_write_bytes sock v.iov_base v.iov_len
          if ret = -1 ∧ accum = 0 then return (-1, sock)
          else
            let ret := if ret = -1 then 0 else ret
            let accum := (accum + ret).bmod (2 ^ 32)
            if ret < (v.iov_len : Int).bmod (2 ^ 32) then return (accum, sock)
            else writev_loop rest ((i - 1).bmod (2 ^ 32)) accum sock
        else writev_loop rest ((i - 1).bmod (2 ^ 32)) accum sock

def sock_writev (sock : Outlet) (iov : List Iovec) (count : Nat) : C (Int × Outlet) :=
  writev_loop iov ((count : Int).bmod (2 ^ 32)) 0 sock

/-! ## Writing formatted text -/

/-- What `vsnprintf` returns where the format and its arguments give `text`, and what it stores in
`size` bytes. -/
def vsnprintf (size : Nat) (text : Bytes) : Int × Bytes :=
  (if text.length < 2 ^ 31 then text.length else -1, text.take (size - 1) ++ [0])

/-- The answer of `malloc` is for a size. No object has 2^63 bytes. -/
def sock_write_fmt (malloc : Nat → Bool) (sock : Outlet) (text : Bytes) : C (Int × Outlet) :=
  let (len, buff) := vsnprintf 1024 text
  if len > 0 then
    if len < 1024 then sock_write_bytes sock (some buff) len.toNat
    else
      let size := (((len + 1).bmod (2 ^ 32)) % 2 ^ 64).toNat
      if malloc size && size < 2 ^ 63 then
        let (len, buff) := vsnprintf size text
        if len > 0 then sock_write_bytes sock (some buff) len.toNat else return (-1, sock)
      else return (-1, sock)
  else return (-1, sock)

namespace OldVsnprintf

/-- It does not tell how long a text is that is cut. -/
def vsnprintf (size : Nat) (text : Bytes) : Int × Bytes :=
  (if text.length < size then text.length else -1, text.take (size - 1) ++ [0])

/-- `while (len < 2*1024*1024)`, with `len` and `ret`. -/
def retry_loop (realloc : Nat → Bool) (sock : Outlet) (text : Bytes) :
    Nat → Nat → Int → C (Int × Outlet)
  | 0, _, _ => throw .endless
  | rounds + 1, len, ret =>
    if len < 2 * 1024 * 1024 then
      if ¬ realloc len then return (-1, sock)
      else
        let (ret, buff) := vsnprintf len text
        if ret > 0 then sock_write_bytes sock (some buff) ret.toNat
        else retry_loop realloc sock text rounds (len + 8192) ret
    else return (ret, sock)

def sock_write_fmt (realloc : Nat → Bool) (sock : Outlet) (text : Bytes) : C (Int × Outlet) :=
  retry_loop realloc sock text 257 1024 (-1)

end OldVsnprintf

/-! ## Descriptors -/

def SOCK_ERROR : Int := -1
def SOCK_TIMEOUT : Int := -2
def MAX_ADDR_LEN : Nat := 46

def EINTR : Int := 4
def EAGAIN : Int := 11
def ERESTART : Int := 85
def EINPROGRESS : Int := 115
def EALREADY : Int := 114

/-- What a call of `socket` returned, or what was closed. -/
inductive Event
  | socket (ret : Int)
  | close (sock : Int)
deriving DecidableEq

/-- The calls so far, the mode of each descriptor, and `errno`. -/
structure Kernel where
  events : List Event
  blocking : Int → Bool
  errno : Int

/-- `socket`, with its answer. A new socket is in blocking mode. -/
def socket (answer : Option Nat) (k : Kernel) : Int × Kernel :=
  match answer with
  | none => (-1, { k with events := k.events ++ [.socket (-1)] })
  | some n =>
    (n, { k with events := k.events ++ [.socket n], blocking := Function.update k.blocking n true })

def sock_close (sock : Int) (k : Kernel) : Kernel := { k with events := k.events ++ [.close sock] }

def sock_recoverable (error : Int) : Bool := error ∈ [0, EAGAIN, EINTR, EINPROGRESS, ERESTART]

def sock_connect_pending (error : Int) : Bool := error = EINPROGRESS ∨ error = EALREADY

/-- Whether `getsockopt` with `SO_TYPE` and `fcntl` with `F_SETFL` succeed. -/
structure Control where
  getsockopt : Bool
  fcntl : Bool

def sock_valid_socket (answer : Control) : Bool := answer.getsockopt

def sock_set_blocking (answer : Control) (sock block : Int) (k : Kernel) : Int × Kernel :=
  if ¬ sock_valid_socket answer ∨ block < 0 ∨ block > 1 then (SOCK_ERROR, k)
  else if answer.fcntl then (0, { k with blocking := Function.update k.blocking sock (block ≠ 0) })
  else (-1, k)

/-- What `poll` or `select` answers: 0, an error, or that the socket is ready. Then `getsockopt`
with `SO_ERROR` has the pending error, or fails itself. -/
inductive Wait
  | timeout
  | failed (errno : Int)
  | ready (val : Int)
  | unknown (errno : Int)

/-- The same in both builds. -/
def sock_connected (answer : Wait) (k : Kernel) : Int × Kernel :=
  let otherwise (errno : Int) :=
    (if sock_recoverable errno then 0 else SOCK_ERROR, { k with errno })
  match answer with
  | .timeout => (SOCK_TIMEOUT, k)
  | .failed errno => otherwise errno
  | .ready val => if val = 0 then (1, k) else otherwise val
  | .unknown errno => otherwise errno

/-! ## Connecting with `getaddrinfo` -/

namespace Getaddrinfo

/-- What the system answers to the calls for one address: `socket`, the switch to non-blocking mode,
`getaddrinfo` for the address to bind to, `bind`, `connect` (nothing, or an `errno`), one wait after
the other, the switch back. -/
structure Attempt where
  socket : Option Nat
  nonblocking : Control
  getaddrinfo : Bool
  bind : Bool
  connect : Option Int
  waits : List Wait
  blocking : Control

/-- The loop behind `connect`. No answer left: it still waits. -/
def connect_loop (timeout sock : Int) (blocking : Control) : List Wait → Kernel → C (Int × Kernel)
  | waits, k =>
    if sock_recoverable k.errno then
      match waits with
      | [] => throw .endless
      | answer :: waits =>
        let (connected, k) := sock_connected answer k
        if connected = 0 then connect_loop timeout sock blocking waits k
        else if connected = 1 then
          return (sock, if timeout ≥ 0 then (sock_set_blocking blocking sock 1 k).2 else k)
        else return (SOCK_ERROR, sock_close sock k)
    else return (SOCK_ERROR, sock_close sock k)

/-- The loop over the addresses, with `sock`. -/
def address_loop (bnd : Option CString) (timeout : Int) :
    List Attempt → Int → Kernel → C (Int × Kernel)
  | [], sock, k => return (sock, k)
  | a :: ai, _, k =>
    let (sock, k) := socket a.socket k
    if sock ≥ 0 then
      let k := if timeout > 0 then (sock_set_blocking a.nonblocking sock 0 k).2 else k
      if bnd.isSome ∧ (¬ a.getaddrinfo ∨ ¬ a.bind) then return (SOCK_ERROR, sock_close sock k)
      else
        match a.connect with
        | none => return (sock, k)
        | some errno => do
          let (sock, k) ← connect_loop timeout sock a.blocking a.waits { k with errno }
          if sock ≠ SOCK_ERROR then return (sock, k) else address_loop bnd timeout ai sock k
    else address_loop bnd timeout ai sock k

/-- `snprintf (service, 8, "%u", port)` -/
def service (port : Int) : Bytes := (decimal (port % 2 ^ 32).toNat).take 7

/-- `getaddrinfo` is what becomes of each address that it finds. -/
def sock_connect_wto_bind (getaddrinfo : Option CString → Bytes → Option (List Attempt))
    (hostname : Option CString) (port : Int) (bnd : Option CString) (timeout : Int) (k : Kernel) :
    C (Int × Kernel) :=
  match getaddrinfo hostname (service port) with
  | none => return (SOCK_ERROR, k)
  | some head => address_loop bnd timeout head SOCK_ERROR k

/-- The answers for one address when nothing waits: `socket`, the switch to non-blocking mode,
`connect`. -/
structure Knock where
  socket : Option Nat
  nonblocking : Control
  connect : Option Int

/-- The loop of `sock_connect_non_blocking`, with `sock`. -/
def knock_loop : List Knock → Int → Kernel → Int × Kernel
  | [], sock, k => (sock, k)
  | a :: ai, _, k =>
    let (sock, k) := socket a.socket k
    if sock > -1 then
      let k := (sock_set_blocking a.nonblocking sock 0 k).2
      match a.connect with
      | none => (sock, k)
      | some errno =>
        if ¬ sock_connect_pending errno then
          knock_loop ai SOCK_ERROR (sock_close sock { k with errno })
        else (sock, { k with errno })
    else knock_loop ai sock k

def sock_connect_non_blocking (getaddrinfo : Option CString → Bytes → Option (List Knock))
    (hostname : Option CString) (port : Int) (k : Kernel) : Int × Kernel :=
  match getaddrinfo hostname (service port) with
  | none => (SOCK_ERROR, k)
  | some head => knock_loop head SOCK_ERROR k

/-- The answers for one address to serve at: `socket` and `bind`. -/
structure Seat where
  socket : Option Nat
  bind : Bool

/-- The loop of `sock_get_server_socket`. The first address is looked at without a test. -/
def seat_loop : List Seat → Kernel → Int × Kernel
  | [], k => (SOCK_ERROR, k)
  | a :: ai, k =>
    let (sock, k) := socket a.socket k
    if sock < 0 then seat_loop ai k
    else if ¬ a.bind then seat_loop ai (sock_close sock k)
    else (sock, k)

def sock_get_server_socket (getaddrinfo : Option CString → Bytes → Option (List Seat)) (port : Int)
    (sinterface : Option CString) (k : Kernel) : C (Int × Kernel) :=
  if port < 0 then return (SOCK_ERROR, k)
  else
    match getaddrinfo sinterface ((decimal port.toNat).take 9) with
    | none => return (SOCK_ERROR, k)
    | some [] => throw .null
    | some res => return seat_loop res k

end Getaddrinfo

/-! ## Connecting without it -/

namespace Gethostbyname

/-- The functions of the resolver: whether a text is an address, the address of a name as a text,
whether a text is an address of four bytes. -/
structure Resolver where
  isip : Bytes → Bool
  gethostbyname : Bytes → Option Bytes
  inet_aton : Bytes → Bool

/-- What the system answers to `socket`, `bind`, the switch to non-blocking mode, `connect`, the
wait and the switch back. -/
structure Answers where
  socket : Option Nat
  bind : Bool
  nonblocking : Control
  connect : Option Int
  wait : Wait
  blocking : Control

/-- What is copied into the buffer, or a null pointer. -/
def resolver_getip (lib : Resolver) (name : Bytes) (len : Nat) : Option Bytes :=
  if lib.isip name then
    some (name.take (len - 1))
  else
    (lib.gethostbyname name).map fun temp => temp.take (len - 1)

/-- The bytes of a `struct sockaddr_in`, and where its field `sin_addr` of four bytes is. -/
def sockaddr_in_size : Nat := 16
def sin_addr_offset : Nat := 4

/-- `memcpy (&server.sin_addr, &sin.sin_addr, sizeof (struct sockaddr_in))`, with the structures as
blocks. The size is not that of the field. -/
def copy_sin_addr (server sin : Bytes) : C Bytes := do
  let sin_addr ← slice sin sin_addr_offset sockaddr_in_size
  let _ ← slice server sin_addr_offset sockaddr_in_size
  return server.take sin_addr_offset ++ sin_addr

/-- The address that `inet_aton` finds is left out of `sin`. -/
def sock_try_connection (lib : Resolver) (connect : Option Int) (sock : Int)
    (hostname : Option CString) (port : Int) (k : Kernel) : C (Int × Kernel) :=
  match hostname with
  | none => return (-1, k)
  | some hostname =>
    if hostname.bytes = [] ∨ port % 2 ^ 32 = 0 then return (-1, k)
    else
      let sin := List.replicate sockaddr_in_size 0
      let server := List.replicate sockaddr_in_size 0
      match resolver_getip lib hostname.bytes MAX_ADDR_LEN with
      | none => return (-1, sock_close sock k)
      | some ip =>
        if ¬ lib.inet_aton ip then return (-1, sock_close sock k)
        else do
          let _ ← copy_sin_addr server sin
          match connect with
          | none => return (0, k)
          | some errno => return (-1, { k with errno })

def sock_connect_wto_bind (lib : Resolver) (a : Answers) (hostname : Option CString) (port : Int)
    (bnd : Option CString) (timeout : Int) (k : Kernel) : C (Int × Kernel) :=
  let (sock, k) := socket a.socket k
  if sock = SOCK_ERROR then return (SOCK_ERROR, k)
  else if bnd.any fun bnd => ¬ lib.inet_aton bnd.bytes ∨ ¬ a.bind then
    return (SOCK_ERROR, sock_close sock k)
  else if timeout ≠ 0 then do
    let k := (sock_set_blocking a.nonblocking sock 0 k).2
    let (ret, k) ← sock_try_connection lib a.connect sock hostname port k
    let (connected, k) := if ret < 0 then sock_connected a.wait k else (1, k)
    if connected ≤ 0 then return (SOCK_ERROR, sock_close sock k)
    else return (sock, (sock_set_blocking a.blocking sock 1 k).2)
  else do
    let (ret, k) ← sock_try_connection lib a.connect sock hostname port k
    if ret < 0 then return (SOCK_ERROR, sock_close sock k) else return (sock, k)

/-- The answers are those to `socket`, the switch to non-blocking mode and `connect`. -/
def sock_connect_non_blocking (lib : Resolver) (answer : Option Nat) (nonblocking : Control)
    (connect : Option Int) (hostname : Option CString) (port : Int) (k : Kernel) :
    C (Int × Kernel) :=
  let (sock, k) := socket answer k
  if sock = SOCK_ERROR then return (SOCK_ERROR, k)
  else do
    let k := (sock_set_blocking nonblocking sock 0 k).2
    let (_, k) ← sock_try_connection lib connect sock hostname port k
    return (sock, k)

/-- The answers are those to `socket` and `bind`. -/
def sock_get_server_socket (lib : Resolver) (answer : Option Nat) (bind : Bool) (port : Int)
    (sinterface : Option CString) (k : Kernel) : Int × Kernel :=
  if port < 0 then (SOCK_ERROR, k)
  else if sinterface.any fun name =>
      (resolver_getip lib name.bytes MAX_ADDR_LEN).all fun ip => ¬ lib.inet_aton ip then
    (SOCK_ERROR, k)
  else
    let (sock, k) := socket answer k
    if sock = SOCK_ERROR then (SOCK_ERROR, k)
    else if ¬ bind then (SOCK_ERROR, k)
    else (sock, k)

end Gethostbyname

/-! ## Accepting -/

/-- What the system answers to `sock_accept`: whether the server socket is one, `accept`, and the
address as a text. -/
structure Caller where
  valid : Control
  accept : Option Nat
  address : Option Bytes

/-- What it returns, and the text that it stores at `ip`, cut to the room there. A descriptor of
`accept` is recorded as one of `socket`. Without `getnameinfo` there is always an address, which may
stay without its NUL. -/
def sock_accept (getnameinfo : Bool) (a : Caller) (ip : Bool) (len : Nat) (k : Kernel) :
    Int × Option Bytes × Kernel :=
  if ¬ ip ∨ len = 0 ∨ ¬ sock_valid_socket a.valid then (SOCK_ERROR, none, k)
  else
    let (ret, k) := socket a.accept k
    if ret = SOCK_ERROR then (ret, none, k)
    else if getnameinfo then (ret, some ((a.address.getD (ascii "unknown")).take (len - 1)), k)
    else (ret, some ((a.address.getD []).take len), k)

end Net
