/-
# SymbolAtlas.FileTree.Report -- trees of files from JSON

An entry names a path and what stands there: a directory, a link, or a file with its
content and the second of its last change.  A content is a text, bytes in base 64, or
texts with how often each is repeated.
-/
import SymbolAtlas.FileTree
import SymbolAtlas.Json.Basic
import SymbolAtlas.Text.Base64

set_option autoImplicit false

namespace SymbolAtlas.FileTree

open Text

/-- The second of the last change of a file that does not say it. -/
def defaultModified : Int := 1000000000

/-- Bytes, and a text `count` times after them. -/
def appendRepeated (text : String) (count : Nat) (out : ByteArray) : ByteArray :=
  let bytes := text.toUTF8
  count.fold (fun _ _ out => out ++ bytes) out

/-- The bytes of a content. -/
def contentOf? : Json → Option ByteArray
  | .str text => some text.toUTF8
  | .obj members =>
      let j := Json.obj members
      match j.member? "b64" with
      | some encoded => (Base64.decode? (encoded.str?.getD "")).map fun bytes => ⟨bytes.toArray⟩
      | none => some ((j.items "parts").foldl (fun out part =>
          match part with
          | .arr [.str text, count] => appendRepeated text (count.int?.getD 0).toNat out
          | _ => out) .empty)
  | _ => none

/-- The tree with an entry put in place. -/
def putEntry (t : FileTree) (j : Json) : FileTree :=
  let path := j.text "path"
  let modified := j.number "mtime"
  if j.flag "dir" then t.put path .directory
  else if j.text "symlink" ≠ "" then t.put path (.link (j.text "symlink"))
  else
    t.put path (.file ((contentOf? (j.member "content")).getD .empty)
      (if modified = 0 then defaultModified else modified))

/-- The tree with entries put in place, in order. -/
def putEntries (t : FileTree) (entries : List Json) : FileTree := entries.foldl putEntry t

end SymbolAtlas.FileTree
