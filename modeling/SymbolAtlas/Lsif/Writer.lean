/-
# SymbolAtlas.Lsif.Writer -- lines on their way to a file

Lines go through a buffer.  A line that does not fit fills the buffer up, the
full buffer is written out, and the rest of the line is buffered.  The file may
refuse a write; then nothing of that write is stored, and the writer accepts
nothing any more.
-/
import SymbolAtlas.Lsif.Numbering

set_option autoImplicit false

namespace SymbolAtlas.Lsif

/-- A file that holds at most `limit` bytes, behind a buffer. -/
structure Spool where
  written : ByteArray := .empty
  buffer : ByteArray := .empty
  limit : Option Nat := none
  failed : Bool := false
  /-- The reason that the file gives when it is full. -/
  refusal : String := "disk full"

namespace Spool

/-- The size of the buffer. -/
def capacity : Nat := 65536

/-- Write bytes to the file, all or none of them. -/
def store (s : Spool) (bytes : ByteArray) : Spool :=
  if (s.limit.map fun n => decide (n < s.written.size + bytes.size)).getD false then
    { s with failed := true }
  else { s with written := s.written ++ bytes }

/-- Write the buffer out. -/
def flush (s : Spool) : Spool :=
  if s.failed || s.buffer.isEmpty then s
  else
    let s' := s.store s.buffer
    if s'.failed then s' else { s' with buffer := .empty }

/-- Append bytes: fill the buffer and write it out while they do not fit; onto an
empty buffer they are written out directly.  Each round but the first ends it, so
two are enough. -/
def append (s : Spool) (bytes : ByteArray) : Spool :=
  if s.failed then s
  else if s.buffer.size + bytes.size ≤ capacity then { s with buffer := s.buffer ++ bytes }
  else if s.buffer.isEmpty then s.store bytes
  else
    let room := capacity - s.buffer.size
    let s := { s with buffer := s.buffer ++ bytes.extract 0 room }.flush
    let rest := bytes.extract room bytes.size
    if s.failed then s
    else if rest.size ≤ capacity then { s with buffer := rest }
    else s.store rest

end Spool

/-- A writer of dumps. -/
structure Writer where
  numbering : Numbering := {}
  spool : Spool := {}
  /-- How many lines were written. -/
  count : Nat := 0
  error : Option String := none

namespace Writer

/-- Write lines until one fails. -/
def writeLines : Writer → List Line → Writer
  | w, [] => w
  | w, l :: rest =>
      let spool := w.spool.append l.render.toUTF8
      if spool.failed then { w with spool, error := some ("lsif: encode: " ++ spool.refusal) }
      else writeLines { w with spool, count := w.count + 1 } rest

/-- Write an element.  The first error stays. -/
def emit (e : Graph.Element) (w : Writer) : Writer :=
  if w.error.isSome then w
  else
    match e.body, Lining.element? e with
    | _, some lining =>
        let ((), numbering, lines) := lining (w.numbering, [])
        { w with numbering }.writeLines lines
    | .foreign typeName _, none =>
        { w with error := some ("lsif: unsupported element " ++ typeName) }
    | _, none => w

/-- Write out what is buffered. -/
def close (w : Writer) : Writer :=
  if w.error.isSome then w
  else
    let spool := w.spool.flush
    if spool.failed then { w with spool, error := some ("lsif: flush: " ++ spool.refusal) }
    else { w with spool }

/-- The writer as a sink of elements. -/
def sink : Graph.Sink Writer := fun e w =>
  let w := w.emit e
  match w.error with
  | some reason => .error reason
  | none => .ok w

end Writer
end SymbolAtlas.Lsif
