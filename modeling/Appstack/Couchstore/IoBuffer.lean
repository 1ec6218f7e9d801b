import Appstack.Couchstore.TreeFile
import Appstack.Lib.FileImage
import Appstack.Lib.Machine

-- `iobuffer.c`. The content of a buffer is the list of its valid bytes, so `length` is the length of
-- that list. Memory allocation is taken to succeed.

namespace Appstack.Couchstore.IoBuffer
open Lib

def maxReadBuffers : ℕ := 8

def writeBufferCapacity : ℕ := 128 * 1024

def readBufferCapacity : ℕ := 8 * 1024

/-- The calls below the layer: what becomes of the `n`-th one if it reads and if it writes.
`none` is an error, `some c` a transfer of at most `c + 1` bytes. -/
structure RawOps where
  pread : ℕ → Option ℕ
  pwrite : ℕ → Option ℕ

structure RawFile where
  image : FileImage UInt8
  calls : ℕ

def RawFile.tick (f : RawFile) : RawFile := { f with calls := f.calls + 1 }

def rawPwrite (ops : RawOps) (buf : Bytes) (pos : ℕ) (f : RawFile) : Except Errcode ℕ × RawFile :=
  match ops.pwrite f.calls with
  | none => (.error .write, f.tick)
  | some c =>
    let n := min buf.length (c + 1)
    (.ok n, { f.tick with image := f.image.write pos (buf.take n) })

def rawPread (ops : RawOps) (nbyte pos : ℕ) (f : RawFile) : Except Errcode Bytes × RawFile :=
  match ops.pread f.calls with
  | none => (.error .read, f.tick)
  | some c => (.ok (f.image.read (min nbyte (c + 1)) pos), f.tick)

structure FileBuffer where
  capacity : ℕ
  bytes : Bytes
  offset : ℕ
  dirty : Bool

def FileBuffer.new (capacity : ℕ) : FileBuffer where
  capacity := capacity
  bytes := []
  offset := 0
  dirty := false

def writeToBuffer (buf : FileBuffer) (bytes : Bytes) (offset : ℕ) : ℕ × FileBuffer :=
  let start := if buf.bytes = [] then offset else buf.offset
  if buf.bytes ≠ [] ∧ (offset < buf.offset ∨ buf.offset + buf.bytes.length < offset) then (0, buf)
  else
    let offsetInBuffer := offset - start
    let bufferNbyte := min (buf.capacity - offsetInBuffer) bytes.length
    (bufferNbyte, { buf with
        offset := start
        bytes := buf.bytes.take offsetInBuffer ++ bytes.take bufferNbyte ++
          buf.bytes.drop (offsetInBuffer + bufferNbyte)
        dirty := true })

/-- The loop of `flush_buffer`; each round that goes on has written a byte. -/
def flushLoop (ops : RawOps) : ℕ → FileBuffer → RawFile → Except Errcode Unit × FileBuffer × RawFile
  | 0, buf, f => (.error .depth, buf, f)
  | fuel + 1, buf, f =>
    if buf.bytes = [] ∨ buf.dirty = false then (.ok (), { buf with dirty := false }, f)
    else
      match rawPwrite ops buf.bytes buf.offset f with
      | (.error e, f) => (.error e, buf, f)
      | (.ok n, f) =>
        if n = 0 then (.ok (), buf, f)
        else flushLoop ops fuel
          { buf with bytes := buf.bytes.drop n, offset := buf.offset + n } f

def flushBuffer (ops : RawOps) (buf : FileBuffer) (f : RawFile) :
    Except Errcode Unit × FileBuffer × RawFile :=
  flushLoop ops (buf.bytes.length + 1) buf f

def readFromBuffer (buf : FileBuffer) (nbyte offset : ℕ) : Bytes :=
  if offset < buf.offset ∨ buf.offset + buf.bytes.length ≤ offset then []
  else (buf.bytes.drop (offset - buf.offset)).take nbyte

def loadBufferFrom (ops : RawOps) (buf : FileBuffer) (offset nbyte : ℕ) (f : RawFile) :
    Except Errcode Unit × FileBuffer × RawFile :=
  let load := fun (buf : FileBuffer) (f : RawFile) =>
    let buf :=
      if offset < buf.offset ∨ buf.offset + buf.capacity < offset + nbyte then
        { buf with offset := offset, bytes := [] }
      else buf
    match rawPread ops (buf.capacity - buf.bytes.length) (buf.offset + buf.bytes.length) f with
    | (.error e, f) => (.error e, buf, f)
    | (.ok got, f) => (.ok (), { buf with bytes := buf.bytes ++ got }, f)
  if buf.dirty then
    match flushBuffer ops buf f with
    | (.error e, buf, f) => (.error e, buf, f)
    | (.ok (), buf, f) => load buf f
  else load buf f

structure BufferList where
  first : FileBuffer
  others : List FileBuffer

def BufferList.all (bs : BufferList) : List FileBuffer := bs.first :: bs.others

def blockStart (offset : ℕ) : ℕ := offset - offset % readBufferCapacity

/-- The buffer on the block of `offset`, else a new one, else the last of the list; it is
moved to the start of the list. -/
def findBuffer (bs : BufferList) (offset : ℕ) : BufferList :=
  match bs.all.span fun b => b.offset ≠ blockStart offset with
  | (before, buffer :: behind) => ⟨buffer, before ++ behind⟩
  | (before, []) =>
    if bs.all.length < maxReadBuffers then ⟨.new readBufferCapacity, before⟩
    else ⟨before.getLastD bs.first, before.dropLast⟩

structure Handle where
  raw : RawFile
  writeBuffer : FileBuffer
  buffers : BufferList

def openHandle (f : RawFile) : Handle where
  raw := f
  writeBuffer := .new writeBufferCapacity
  buffers := ⟨.new readBufferCapacity, []⟩

/-- The loop of `buffered_pread`; each round that goes on has read a byte. -/
def preadLoop (ops : RawOps) :
    ℕ → ℕ → ℕ → BufferList → RawFile → Except Errcode Bytes × BufferList × RawFile
  | 0, _, _, bs, f => (.error .depth, bs, f)
  | fuel + 1, nbyte, offset, bs, f =>
    if nbyte = 0 then (.ok [], bs, f)
    else
      let next := fun (got : Bytes) (bs : BufferList) (f : RawFile) =>
        match preadLoop ops fuel (nbyte - got.length) (offset + got.length) bs f with
        | (.error e, bs, f) => (.error e, bs, f)
        | (.ok rest, bs, f) => (.ok (got ++ rest), bs, f)
      let bs := findBuffer bs offset
      let got := readFromBuffer bs.first nbyte offset
      if got = [] then
        let start := blockStart offset
        match loadBufferFrom ops bs.first start (offset + nbyte - start) f with
        | (.error e, buffer, f) => (.error e, { bs with first := buffer }, f)
        | (.ok (), buffer, f) =>
          let bs := { bs with first := buffer }
          let got := readFromBuffer buffer nbyte offset
          if got = [] then (.ok [], bs, f) else next got bs f
      else next got bs f

def bufferedPread (ops : RawOps) (nbyte offset : ℕ) (h : Handle) : Except Errcode Bytes × Handle :=
  match flushBuffer ops h.writeBuffer h.raw with
  | (.error e, buffer, f) => (.error e, { h with writeBuffer := buffer, raw := f })
  | (.ok (), buffer, f) =>
    match preadLoop ops (nbyte + 1) nbyte offset h.buffers f with
    | (r, bs, f) => (r, { raw := f, writeBuffer := buffer, buffers := bs })

def bufferedPwrite (ops : RawOps) (buf : Bytes) (offset : ℕ) (h : Handle) :
    Except Errcode ℕ × Handle :=
  if buf = [] then (.ok 0, h)
  else
    let (nbyteWritten, buffer) := writeToBuffer h.writeBuffer buf offset
    let rest := buf.drop nbyteWritten
    let offset := offset + nbyteWritten
    -- the second part: what did not fit goes to the buffer or straight to the file
    let finish := fun (buffer : FileBuffer) (f : RawFile) =>
      let h := { h with writeBuffer := buffer, raw := f }
      if rest = [] then (.ok nbyteWritten, h)
      else if rest.length ≤ buffer.capacity - buffer.bytes.length then
        let (written, buffer) := writeToBuffer buffer rest offset
        (.ok (nbyteWritten + written), { h with writeBuffer := buffer })
      else
        match rawPwrite ops rest offset f with
        | (.error e, f) => (.error e, { h with raw := f })
        | (.ok written, f) => (.ok (nbyteWritten + written), { h with raw := f })
    if buffer.bytes.length = buffer.capacity ∨ nbyteWritten = 0 then
      match flushBuffer ops buffer h.raw with
      | (.error e, buffer, f) => (.error e, { h with writeBuffer := buffer, raw := f })
      | (.ok (), buffer, f) => finish buffer f
    else finish buffer h.raw

def bufferedSync (ops : RawOps) (h : Handle) : Except Errcode Unit × Handle :=
  match flushBuffer ops h.writeBuffer h.raw with
  | (r, buffer, f) => (r, { h with writeBuffer := buffer, raw := f })

end Appstack.Couchstore.IoBuffer
