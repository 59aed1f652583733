import OnnxFusion.Text.Utf8
/-!
# The directory of a zip archive

A zip archive is found from its end. Its end-of-directory record (signature `PK 5 6`,
22 bytes) is the last 22 bytes of the file when they carry the signature and a zero comment
length; otherwise it is the last signature within the final 64 KiB and 22 bytes, which must
have 22 bytes from its start. A 64-bit locator (`PK 6 7`, 20 bytes) right before the record
may lead to a 64-bit end record (`PK 6 6`, 56 bytes, right before the locator) whose
directory size and offset then replace the record's.

The directory lies where its offset says, moved by `shift`: the bytes the file holds before
the archive proper, found as the record's place less the directory's size and offset (and
less the 64-bit records). Each entry (`PK 1 2`, 46 fixed bytes, then its name, extra field
and comment) is read in turn until the declared lengths cover the directory's size; bytes
past the end of the directory read as nothing. A name is UTF-8 when bit 11 of the entry's
flags is set and code page 437 otherwise, and ends at its first NUL. The extra field is a
list of tagged blocks; block 1 supplies, in this order, the file size, the compressed size
and the local header offset for each of them that the entry writes as all ones.

`members` gives the entries in directory order, and `Entry.checkHeader` checks the local
header an entry points at.
-/

set_option autoImplicit false

namespace OnnxFusion.Zip

/-- The byte at a position; zero past the end. -/
def byteAt (b : Array Nat) (i : Nat) : Nat := b.getD i 0

/-- The little-endian number in `n` bytes from position `i`. -/
def word (b : Array Nat) (i : Nat) : Nat → Nat
  | 0 => 0
  | n + 1 => byteAt b i + 256 * word b (i + 1) n

/-- Whether the signature `P K x y` lies wholly within the bytes at a position. -/
def signatureAt (b : Array Nat) (i x y : Nat) : Bool :=
  i + 4 ≤ b.size && byteAt b i == 0x50 && byteAt b (i + 1) == 0x4b &&
    byteAt b (i + 2) == x && byteAt b (i + 3) == y

/-- What the end records tell about the directory. -/
structure EndRecord where
  /-- Where the end-of-directory record starts. -/
  place : Nat
  /-- The directory's size in bytes. -/
  size : Nat
  /-- The directory's offset within the archive proper. -/
  offset : Nat
  /-- Whether the 64-bit records are present. -/
  wide : Bool

/-- The end-of-directory record at a position. -/
def EndRecord.read (b : Array Nat) (p : Nat) : EndRecord :=
  ⟨p, word b (p + 12) 4, word b (p + 16) 4, false⟩

/-- The record with the 64-bit records before it applied. A locator on another disk is a
fault, and so is one too near the start of the file to have a 64-bit record before it. -/
def EndRecord.widen (b : Array Nat) (r : EndRecord) : Outcome EndRecord :=
  if r.place < 20 || !signatureAt b (r.place - 20) 6 7 then .ok r
  else
    let loc := r.place - 20
    if word b (loc + 4) 4 != 0 || word b (loc + 16) 4 > 1 then .error (.badArchive .spansDisks)
    else if r.place < 76 then .error (.badArchive .notAnArchive)
    else
      let w := r.place - 76
      if !signatureAt b w 6 6 then .ok r
      else .ok { r with size := word b (w + 40) 8, offset := word b (w + 48) 8, wide := true }

/-- The end records of an archive. -/
def endRecord (b : Array Nat) : Outcome EndRecord :=
  if b.size < 22 then .error (.badArchive .notAnArchive)
  else
    let last := b.size - 22
    if signatureAt b last 5 6 && byteAt b (b.size - 2) == 0 && byteAt b (b.size - 1) == 0 then
      (EndRecord.read b last).widen b
    else
      let start := b.size - (65536 + 22)
      match (List.range (b.size - start)).reverse.find? (fun k => signatureAt b (start + k) 5 6) with
      | some k =>
        if start + k + 22 ≤ b.size then (EndRecord.read b (start + k)).widen b
        else .error (.badArchive .notAnArchive)
      | none => .error (.badArchive .notAnArchive)

/-- The characters of code page 437 for the bytes from 128 up; the lower half is ASCII. -/
def codePage437High : String :=
  "ÇüéâäàåçêëèïîìÄÅÉæÆôöòûùÿÖÜ¢£¥₧ƒáíóúñÑªº¿⌐¬½¼¡«»░▒▓│┤╡╢╖╕╣║╗╝╜╛┐└┴┬├─┼╞╟╚╔╩╦╠═╬╧╨╤╥╙╘╒╓╫╪┘┌█▄▌▐▀αßΓπΣσµτΦΘΩδ∞φε∩≡±≥≤⌠⌡÷≈°∙·√ⁿ²■\u00a0"

/-- The text of bytes in code page 437. -/
def decode437 (bytes : List Nat) : String :=
  String.ofList (bytes.map fun n => if n < 128 then Char.ofNat n else codePage437High.toList.getD (n - 128) ' ')

/-- The sizes and offset of an entry as block 1 of its extra field leaves them. -/
structure Sizes where
  fileSize : Nat
  compressedSize : Nat
  headerOffset : Nat

/-- The 8-byte value at the head of a block's data, or the missing field's fault. -/
def wideValue (field : String) (data : List Nat) : Outcome Nat :=
  if data.length < 8 then .error (.badArchive (.missingWideValue field))
  else .ok (word data.toArray 0 8)

/-- The sizes after one block 1 of an extra field. -/
def Sizes.widen (s : Sizes) (data : List Nat) : Outcome Sizes := do
  let (s, data) ← if s.fileSize == 0xFFFFFFFFFFFFFFFF || s.fileSize == 0xFFFFFFFF then do
      let v ← wideValue "File size" data
      pure ({ s with fileSize := v }, data.drop 8)
    else pure (s, data)
  let (s, data) ← if s.compressedSize == 0xFFFFFFFF then do
      let v ← wideValue "Compress size" data
      pure ({ s with compressedSize := v }, data.drop 8)
    else pure (s, data)
  if s.headerOffset == 0xFFFFFFFF then do
    let v ← wideValue "Header offset" data
    pure { s with headerOffset := v }
  else pure s

/-- The sizes after the blocks of an extra field; each step reads at least four bytes, so
`fuel` as large as the field is enough. -/
def Sizes.applyExtra (s : Sizes) : Nat → List Nat → Outcome Sizes
  | 0, _ => .ok s
  | fuel + 1, extra =>
    if extra.length < 4 then .ok s
    else
      let tag := word extra.toArray 0 2
      let size := word extra.toArray 2 2
      if size + 4 > extra.length then .error (.badArchive (.corruptExtra tag size))
      else do
        let s ← if tag == 1 then s.widen ((extra.drop 4).take size) else pure s
        s.applyExtra fuel (extra.drop (size + 4))

/-- An entry of the directory. -/
structure Entry where
  /-- The name, up to its first NUL. -/
  name : String
  /-- Where the entry's local header starts in the file. -/
  header : Int

/-- The bytes from `i` on, at most `n` of them. -/
def slice (b : Array Nat) (i n : Nat) : List Nat := (b.extract i (i + n)).toList

/-- The entry whose fixed part starts at `p` within the directory `dir`. -/
def entryAt (dir : Array Nat) (shift : Int) (p : Nat) : Outcome Entry := do
  let flags := word dir (p + 8) 2
  let nameLength := word dir (p + 28) 2
  let extraLength := word dir (p + 30) 2
  let raw := slice dir (p + 46) nameLength
  let name ← if flags % 4096 ≥ 2048 then Text.decodeUtf8 raw else pure (decode437 raw)
  let version := byteAt dir (p + 6)
  if version > 63 then throw (.archiveVersion version)
  let extra := slice dir (p + 46 + nameLength) extraLength
  let sizes : Sizes := ⟨word dir (p + 24) 4, word dir (p + 20) 4, word dir (p + 42) 4⟩
  let sizes ← sizes.applyExtra extra.length extra
  pure ⟨String.ofList (name.toList.takeWhile (· != '\x00')), sizes.headerOffset + shift⟩

/-- The entries from position `total` of the directory on, after those in `acc`. -/
def entriesFrom (dir : Array Nat) (size : Nat) (shift : Int) (total : Nat) (acc : List Entry) :
    Outcome (List Entry) :=
  if _h : total < size then
    if dir.size < total + 46 then .error (.badArchive .truncatedDirectory)
    else if !signatureAt dir total 1 2 then .error (.badArchive .badDirectorySignature)
    else
      match entryAt dir shift total with
      | .error f => .error f
      | .ok e =>
        entriesFrom dir size shift
          (total + 46 + word dir (total + 28) 2 + word dir (total + 30) 2 + word dir (total + 32) 2)
          (acc ++ [e])
  else .ok acc
termination_by size - total

/-- The entries of an archive, in directory order. -/
def members (b : Array Nat) : Outcome (List Entry) := do
  let r ← endRecord b
  let shift : Int := (r.place : Int) - r.size - r.offset - (if r.wide then 76 else 0)
  let start := r.offset + shift
  if start < 0 then throw (.badArchive .directoryBeforeStart)
  entriesFrom (b.extract start.toNat (start.toNat + r.size)) r.size shift 0 []

/-- Checks the local header an entry points at: it must lie before the end of the file and
carry its signature (`PK 3 4`, 30 fixed bytes). -/
def Entry.checkHeader (b : Array Nat) (e : Entry) : Outcome Unit :=
  if e.header < 0 then .error .seekBeforeStart
  else if b.size < e.header.toNat + 30 then .error (.badArchive .truncatedHeader)
  else if !signatureAt b e.header.toNat 3 4 then .error (.badArchive .badHeaderSignature)
  else .ok ()

end OnnxFusion.Zip
