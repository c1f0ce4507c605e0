/-
Buffered streams of `src/stdio.c`.

The header of `stdio.c` and the system calls are not there: `malloc`, `sys_read` and
`sys_write` answer as the caller of a step says. `sys_write` fails or accepts some of the
bytes it is passed, at least one; when no more answers are given it fails, and `sys_read`
then is at the end of the file. The descriptor is only passed on, and is left out.

A copy through a null `buf` has no meaning in C: the function has no result (`none`).
-/
import ArmKernel.Support.Bytes
import ArmKernel.Support.Word
import Mathlib.Data.List.Infix

namespace ArmKernel.Libc

open ArmKernel.Support

/-- `BUFFER_SIZE`. -/
def bufferSize : Nat := 1024

/-- `O_APPEND`. -/
def oAppend : Nat := 0x0400

/-- `FILE`; `buf` is a null pointer, or a block of `BUFFER_SIZE` bytes. -/
structure File where
  flags : Nat
  buf : Option Bytes
  bufPos : Nat
  bufEnd : Int

/-- The pointers that the functions compare a stream with. -/
inductive StreamName where
  | stdin
  | stdout
  | stderr
  | opened
  deriving DecidableEq

/-! ### System calls -/

/-- What `sys_read` answers: an error, or bytes, of which it stores `BUFFER_SIZE` at most. -/
inductive ReadAnswer where
  | failed (code : Nat)
  | data (bytes : List (BitVec 8))

/-- The answers of `sys_write` to come, `none` for an error; the bytes it has accepted, and
all that it was passed. -/
structure Device where
  writes : List (Option Nat)
  accepted : List (BitVec 8)
  passed : List (List (BitVec 8))

/-- `sys_write`, with the number of bytes accepted; `none` for a negative result. -/
def sysWrite (dev : Device) (bytes : List (BitVec 8)) : Option Nat × Device :=
  match dev.writes with
  | some k :: writes =>
    let n := min (k + 1) bytes.length
    (some n, ⟨writes, dev.accepted ++ bytes.take n, dev.passed ++ [bytes]⟩)
  | none :: writes => (none, { dev with writes := writes, passed := dev.passed ++ [bytes] })
  | [] => (none, { dev with passed := dev.passed ++ [bytes] })

/-! ### The buffer -/

/-- `_fill_buffer`, which returns 0 (`true`) or `EOF`; `block` is what `malloc` returns. -/
def fillBuffer (stream : File) (block : Option Bytes) (reads : List ReadAnswer) :
    Bool × File × List ReadAnswer :=
  match stream.buf <|> block with
  | none => (false, stream, reads)
  | some buf =>
    match reads with
    | .data bytes :: reads =>
      let bytes := bytes.take bufferSize
      (decide (0 < bytes.length),
        { stream with buf := some (storeBytes buf 0 bytes), bufPos := 0, bufEnd := bytes.length },
        reads)
    | .failed code :: reads =>
      (false, { stream with buf := some buf, bufPos := 0, bufEnd := -(code + 1 : Int) }, reads)
    | [] => (false, { stream with buf := some buf, bufPos := 0, bufEnd := 0 }, [])

/-- The loop of `_flush_buffer`, over a buffer with `pos` bytes. -/
def flushFrom (buf : Bytes) (pos : Nat) : Nat → Device → Nat → Bool × Device
  | 0, dev, _ => (false, dev)
  | fuel + 1, dev, written =>
    if written < pos then
      match sysWrite dev (readBytes buf written (pos - written)) with
      | (none, dev) => (false, dev)
      | (some ret, dev) => flushFrom buf pos fuel dev (written + ret)
    else (true, dev)

/-- `_flush_buffer`, which returns 0 (`true`) or `EOF`. -/
def flushBuffer (stream : File) (dev : Device) : Option (Bool × File × Device) :=
  match stream.buf with
  | none => if stream.bufPos = 0 then some (true, stream, dev) else none
  | some buf =>
    match flushFrom buf stream.bufPos (stream.bufPos + 1) dev 0 with
    | (true, dev) => some (true, { stream with bufPos := 0 }, dev)
    | (false, dev) => some (false, stream, dev)

/-! ### The functions -/

/-- The loop of `fread`, with the bytes read so far. -/
def freadLoop (bytes : Nat) (block : Option Bytes) :
    Nat → File → List ReadAnswer → List (BitVec 8) → Option (File × List (BitVec 8))
  | 0, stream, _, read => some (stream, read)
  | fuel + 1, stream, reads, read =>
    if read.length < bytes then
      let r := if stream.bufEnd ≤ stream.bufPos then fillBuffer stream block reads
        else (true, stream, reads)
      if r.1 then
        let stream := r.2.1
        stream.buf.bind fun buf =>
          let remain := (stream.bufEnd - stream.bufPos).toNat
          let toCopy := min (bytes - read.length) remain
          freadLoop bytes block fuel { stream with bufPos := stream.bufPos + toCopy } r.2.2
            (read ++ readBytes buf stream.bufPos toCopy)
      else some (r.2.1, read)
    else some (stream, read)

/-- `fread`, with the number of elements it returns and the bytes it stores. -/
def fread (stream : File) (size nmemb : Nat) (block : Option Bytes) (reads : List ReadAnswer) :
    Option (Nat × List (BitVec 8) × File) :=
  let bytes := wrap32 (size * nmemb)
  (freadLoop bytes block (bytes + 1) stream reads []).map fun r =>
    (r.2.length / size, r.2, r.1)

/-- The loop of `fwrite`, with the number of bytes taken. -/
def fwriteLoop (ptr : Bytes) (bytes : Nat) :
    Nat → File → Device → Nat → Option (Nat × File × Device)
  | 0, stream, dev, written => some (written, stream, dev)
  | fuel + 1, stream, dev, written =>
    if written < bytes then
      (if bufferSize ≤ stream.bufPos then flushBuffer stream dev
        else some (true, stream, dev)).bind fun (flushed, stream, dev) =>
          if flushed then
            stream.buf.bind fun buf =>
              let remain := bufferSize - stream.bufPos
              let toCopy := min (bytes - written) remain
              fwriteLoop ptr bytes fuel
                { stream with
                  buf := some (storeBytes buf stream.bufPos (readBytes ptr written toCopy))
                  bufPos := stream.bufPos + toCopy }
                dev (written + toCopy)
          else some (written, stream, dev)
    else some (written, stream, dev)

/-- `stream == stderr || (stream->flags & O_APPEND)`. -/
def Unbuffered (name : StreamName) (stream : File) : Prop :=
  name = .stderr ∨ stream.flags &&& oAppend ≠ 0

instance (name : StreamName) (stream : File) : Decidable (Unbuffered name stream) :=
  inferInstanceAs (Decidable (_ ∨ _))

/-- `fwrite`, with the number of elements it returns. -/
def fwrite (name : StreamName) (stream : File) (dev : Device) (ptr : Bytes) (size nmemb : Nat) :
    Option (Nat × File × Device) :=
  let bytes := wrap32 (size * nmemb)
  (fwriteLoop ptr bytes (bytes + 1) stream dev 0).bind fun (written, stream, dev) =>
    if Unbuffered name stream then
      (flushBuffer stream dev).map fun r => (written / size, r.2)
    else some (written / size, stream, dev)

/-- `fclose`, with what it returns; the stream is gone. -/
def fclose (stream : File) (dev : Device) : Option (Int × Device) :=
  if 0 < stream.bufPos then
    (flushBuffer stream dev).map fun r => (if r.1 then 0 else -1, r.2.2)
  else some (0, dev)

/-! ### Runs -/

/-- A stream and what became of it: the bytes `sys_write` accepted and those it was passed, the
bytes `fwrite` reported as written, and what `fclose` returned. -/
structure Stream where
  name : StreamName
  file : File
  accepted : List (BitVec 8)
  passed : List (List (BitVec 8))
  reported : List (BitVec 8)
  closed : Option Int

/-- The calls, with the answers they get from `malloc`, `sys_read` and `sys_write`. -/
inductive StdioCall where
  | fread (size nmemb : Nat) (block : Option Bytes) (reads : List ReadAnswer)
  | fwrite (ptr : Bytes) (size nmemb : Nat) (writes : List (Option Nat))
  | fclose (writes : List (Option Nat))

/-- A stream as `fopen` and the initializers leave it. -/
def Stream.init (name : StreamName) (flags : Nat) : Stream :=
  ⟨name, ⟨flags, none, 0, 0⟩, [], [], [], none⟩

/-- What was accepted is a beginning of what `fwrite` reported, and all of it when `fclose`
returned 0; nothing else was passed to `sys_write`. -/
structure Faithful (s : Stream) : Prop where
  accepted : s.accepted <+: s.reported
  passed : ∀ bytes ∈ s.passed, bytes <:+: s.reported
  closed : s.closed = some 0 → s.accepted = s.reported

end ArmKernel.Libc
