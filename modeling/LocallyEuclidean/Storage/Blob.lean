import LocallyEuclidean.Interact.Program
import LocallyEuclidean.Postgres.Statement

/-! `storage::postgres::blob`: a file handle over a Postgres large object, each
operation run to completion, and the tokio combinators that callers drive it with. -/

namespace LocallyEuclidean.Storage
open Interact Postgres

inductive FileHandleError where
  | queryFailed (sql : String) (error : SqlxError)
  | transactionBeginFailed (what : String) (error : SqlxError)
  | transactionCommitFailed (what : String) (error : SqlxError)
  | emptyLseek64
  | emptyOpen
  | emptyRead
  | emptyWrite
  | emptyClose
  | isShutdown
  deriving DecidableEq, Repr

/-- `std::io::Error`, by the kinds that callers look at. -/
inductive IoError where
  | unexpectedEof
  | writeZero
  | other (error : FileHandleError)
  deriving DecidableEq, Repr

inductive SeekFrom where
  | start (n : ℕ)
  | current (n : ℤ)
  | fromEnd (n : ℤ)
  deriving DecidableEq, Repr

/-- The source's `MIB`, which is two of them. -/
def mib : ℕ := 2 * 1024 * 1024

/-- `n as i64`. -/
def asI64 (n : ℕ) : ℤ := (n : ℤ).bmod (2 ^ 64)

/-- `n as i32`. -/
def asI32 (n : ℕ) : ℤ := (n : ℤ).bmod (2 ^ 32)

abbrev DbProg (ε α : Type) := Interact.Prog Query.Reply ε α

/-- Send one statement. -/
def send {ε : Type} (q : Query) : DbProg ε q.Reply := .ask q

/-- Send one statement; `wrap` is its `map_err`. -/
def fetch {ε : Type} (q : Query) (wrap : SqlxError → ε) : DbProg ε q.Row := do
  match ← send q with
  | .ok row => return row
  | .error e => .err (wrap e)

def okOr {ε α : Type} (x : Option α) (e : ε) : DbProg ε α :=
  match x with
  | some a => .ret a
  | none => .err e

/-- `INV_READ`, and `INV_READ | INV_WRITE`, the source says; but its first number is
`INV_WRITE`. -/
inductive OpenMode where
  | read
  | readWrite
  deriving DecidableEq, Repr

/-- `mode as i32`. -/
def OpenMode.bits : OpenMode → ℕ
  | .read => 0x0002_0000
  | .readWrite => 0x0002_0000 ||| 0x0004_0000

/-- Either mode opens for writing. -/
@[simp] theorem OpenMode.ofFlags_bits (mode : OpenMode) :
    DescriptorMode.ofFlags mode.bits = some .readWrite := by
  cases mode <;> decide

structure BlobHandleInner where
  fdNum : ℤ
  deriving DecidableEq, Repr

namespace BlobHandleInner

/-- Opens the given oid as a file, in a transaction of its own. -/
def «open» (oid : Oid) (mode : OpenMode) : DbProg FileHandleError BlobHandleInner := do
  fetch .beginTx (.transactionBeginFailed "lo_open")
  let handle ← fetch (.loOpen oid mode.bits) (.queryFailed "select lo_open($1, $2)")
  let fdNum ← okOr handle .emptyOpen
  return ⟨fdNum⟩

def lseek64 (h : BlobHandleInner) (seek : SeekFrom) : DbProg FileHandleError ℤ := do
  let (n, whence) : ℤ × Whence :=
    match seek with
    | .start n => (asI64 n, .seekSet)
    | .current n => (n, .seekCur)
    | .fromEnd n => (n, .seekEnd)
  let result ← fetch (.loLseek64 h.fdNum n whence) (.queryFailed "select lo_lseek64($1, $2, $3)")
  okOr result .emptyLseek64

def read (h : BlobHandleInner) (count : ℕ) : DbProg FileHandleError Bytes := do
  let result ← fetch (.loRead h.fdNum (asI32 count)) (.queryFailed "select loread($1, $2)")
  okOr result .emptyRead

def write (h : BlobHandleInner) (data : Bytes) : DbProg FileHandleError ℤ := do
  let result ← fetch (.loWrite h.fdNum data) (.queryFailed "select lowrite($1, $2)")
  okOr result .emptyWrite

/-- Without this the transaction is rolled back when the handle is dropped. -/
def close (h : BlobHandleInner) : DbProg FileHandleError Unit := do
  let result ← fetch (.loClose h.fdNum) (.queryFailed "select lo_close($1)")
  let _ ← okOr result .emptyClose
  fetch .commitTx (.transactionCommitFailed "lo_close")

end BlobHandleInner

/-- `inner` is `none` once the handle has been shut down. -/
structure BlobHandle where
  inner : Option BlobHandleInner
  deriving DecidableEq, Repr

namespace BlobHandle

def «open» (oid : Oid) (mode : OpenMode) : DbProg FileHandleError BlobHandle := do
  let inner ← BlobHandleInner.open oid mode
  return ⟨some inner⟩

def live (h : BlobHandle) : DbProg FileHandleError BlobHandleInner := okOr h.inner .isShutdown

/-- One read into a buffer with room for `remaining` bytes. -/
def read (h : BlobHandle) (remaining : ℕ) : DbProg IoError Bytes := do
  let count := min remaining (8 * mib)
  if count < 2 ^ 32 then
    let data ← (do let inner ← h.live; inner.read count : DbProg FileHandleError Bytes).mapErr .other
    if data.length ≤ remaining then return data
    else .panic "buf.len() must fit in remaining()"
  else .panic "called Result::unwrap() on an Err value"

/-- `AsyncSeekExt::seek`: `start_seek`, then `poll_complete` until it is ready. -/
def seek (h : BlobHandle) (position : SeekFrom) : DbProg IoError ℕ := do
  let offset ← (do let inner ← h.live; inner.lseek64 position : DbProg FileHandleError ℤ).mapErr .other
  if 0 ≤ offset then return offset.toNat
  else .panic "postgres seek gives negative value"

/-- One write: the number of bytes that were taken. -/
def write (h : BlobHandle) (data : Bytes) : DbProg IoError ℕ := do
  let written ← (do let inner ← h.live; inner.write data : DbProg FileHandleError ℤ).mapErr .other
  if 0 ≤ written then return written.toNat
  else .panic "wrote negative amount?"

def shutdown (h : BlobHandle) : DbProg IoError Unit :=
  (do let inner ← h.live; inner.close : DbProg FileHandleError Unit).mapErr .other

/-- `AsyncReadExt::read_exact`: read until the buffer of `len` bytes is full. Every
turn fills at least a byte, so `len` turns are enough. -/
def readExactLoop (h : BlobHandle) (len : ℕ) : ℕ → Bytes → DbProg IoError Bytes
  | 0, buf => if buf.length = len then .ret buf else .err .unexpectedEof
  | turns + 1, buf =>
    if buf.length = len then .ret buf
    else do
      let data ← h.read (len - buf.length)
      if data = [] then .err .unexpectedEof
      else readExactLoop h len turns (buf ++ data)

def readExact (h : BlobHandle) (len : ℕ) : DbProg IoError Bytes := h.readExactLoop len len []

/-- `AsyncReadExt::read_u8`. -/
def readU8 (h : BlobHandle) : DbProg IoError UInt8 := do
  match ← h.read 1 with
  | [] => .err .unexpectedEof
  | b :: _ => return b

/-- `AsyncWriteExt::write_all`: write what is left until nothing is. -/
def writeAllLoop (h : BlobHandle) : ℕ → Bytes → DbProg IoError Unit
  | 0, buf => if buf = [] then .ret () else .err .writeZero
  | turns + 1, buf =>
    if buf = [] then .ret ()
    else do
      let n ← h.write buf
      if buf.length < n then .panic "mid > len"
      else if n = 0 then .err .writeZero
      else writeAllLoop h turns (buf.drop n)

def writeAll (h : BlobHandle) (data : Bytes) : DbProg IoError Unit :=
  h.writeAllLoop data.length data

end BlobHandle

end LocallyEuclidean.Storage
