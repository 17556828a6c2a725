/-!
# Deflated data

Blocks of literals and references back into the output, stored as they are or under two prefix
codes. Bits are taken from the low end of each byte. References that reach behind the start find
zeros there. Data that end before the last block does have no output; what follows that block does
not count.
-/

namespace ContentSpaces.Archive.Inflate

structure Progress where
  position : Nat
  out : ByteArray

def bit? (data : ByteArray) (position : Nat) : Option Nat :=
  data[position / 8]?.map fun byte => (byte.toNat >>> (position % 8)) % 2

def number? (data : ByteArray) (position : Nat) : Nat → Option Nat
  | 0 => some 0
  | n + 1 => do
    let low ← bit? data position
    let high ← number? data (position + 1) n
    some (low + 2 * high)

def number (data : ByteArray) (p : Progress) (width : Nat) : Option (Nat × Progress) :=
  (number? data p.position width).map fun n => (n, { p with position := p.position + width })

/-- A prefix code: how many words it has of each length from one on, and its symbols in the order of
their words. -/
structure Code where
  counts : List Nat
  symbols : Array Nat

namespace Code

def maxLength : Nat := 15

def ofLength (lengths : List Nat) (n : Nat) : List Nat :=
  (lengths.zipIdx.filter fun e => e.1 == n).map Prod.snd

/-- How many of the longest bit sequences start with a word. -/
def used : List Nat → Nat
  | [] => 0
  | count :: counts => count * Nat.pow 2 counts.length + used counts

/-- Whether there is no word, or only one of one bit. -/
def isTrivial (counts : List Nat) : Bool := counts.headD 0 ≤ 1 && counts.tail.all (· == 0)

/-- The code in which each symbol has a word of the listed length; zero is for no word. Unless it is
trivial, its words must use up all bit sequences. -/
def ofLengths? (lengths : List Nat) : Option Code :=
  let byLength := (List.range maxLength).map fun i => ofLength lengths (i + 1)
  let counts := byLength.map List.length
  if isTrivial counts || used counts == Nat.pow 2 maxLength then
    some ⟨counts, byLength.flatten.toArray⟩
  else none

/-- Reads a word bit by bit: `word` is what has been read, `first` the first word of the present
length, `index` its place among the symbols. -/
def decode (data : ByteArray) (symbols : Array Nat) (p : Progress) (word first index : Nat) :
    List Nat → Option (Nat × Progress)
  | [] => none
  | count :: counts => do
    let word := word + (← bit? data p.position)
    let p := { p with position := p.position + 1 }
    if word < first + count then symbols[index + (word - first)]?.map fun symbol => (symbol, p)
    else decode data symbols p (2 * word) (2 * (first + count)) (index + count) counts

def next (code : Code) (data : ByteArray) (p : Progress) : Option (Nat × Progress) :=
  decode data code.symbols p 0 0 0 code.counts

end Code

def back (out : ByteArray) (distance : Nat) : UInt8 :=
  if distance ≤ out.size then out[out.size - distance]?.getD 0 else 0

/-- Repeats what stands so far back, byte by byte. -/
def copyBack (distance : Nat) : Nat → ByteArray → ByteArray
  | 0, out => out
  | n + 1, out => copyBack distance n (out.push (back out distance))

/-- Base and number of further bits of the lengths, for symbols from 257 on. -/
def lengthTable : Array (Nat × Nat) :=
  #[(3, 0), (4, 0), (5, 0), (6, 0), (7, 0), (8, 0), (9, 0), (10, 0), (11, 1), (13, 1), (15, 1),
    (17, 1), (19, 2), (23, 2), (27, 2), (31, 2), (35, 3), (43, 3), (51, 3), (59, 3), (67, 4),
    (83, 4), (99, 4), (115, 4), (131, 5), (163, 5), (195, 5), (227, 5), (258, 0)]

def distanceTable : Array (Nat × Nat) :=
  #[(1, 0), (2, 0), (3, 0), (4, 0), (5, 1), (7, 1), (9, 2), (13, 2), (17, 3), (25, 3), (33, 4),
    (49, 4), (65, 5), (97, 5), (129, 6), (193, 6), (257, 7), (385, 7), (513, 8), (769, 8),
    (1025, 9), (1537, 9), (2049, 10), (3073, 10), (4097, 11), (6145, 11), (8193, 12), (12289, 12),
    (16385, 13), (24577, 13)]

def amount (data : ByteArray) (table : Array (Nat × Nat)) (index : Nat) (p : Progress) :
    Option (Nat × Progress) := do
  let (base, width) ← table[index]?
  let (n, p) ← number data p width
  some (base + n, p)

/-- The symbols of a block, up to the one that ends it; every symbol takes a bit at least. -/
def symbols (data : ByteArray) (literals distances : Code) : Nat → Progress → Option Progress
  | 0, _ => none
  | rounds + 1, p => do
    let (symbol, p) ← literals.next data p
    if symbol < 256 then
      symbols data literals distances rounds { p with out := p.out.push symbol.toUInt8 }
    else if symbol = 256 then some p
    else
      let (length, p) ← amount data lengthTable (symbol - 257) p
      let (index, p) ← distances.next data p
      let (distance, p) ← amount data distanceTable index p
      symbols data literals distances rounds { p with out := copyBack distance length p.out }

def stored (data : ByteArray) (p : Progress) : Option Progress := do
  let (length, p) ← number data { p with position := (p.position + 7) / 8 * 8 } 16
  let (complement, p) ← number data p 16
  let start := p.position / 8
  if length + complement ≠ 0xffff ∨ data.size < start + length then none
  else some ⟨p.position + 8 * length, p.out ++ data.extract start (start + length)⟩

def fixedLiterals : List Nat :=
  List.replicate 144 8 ++ List.replicate 112 9 ++ List.replicate 24 7 ++ List.replicate 8 8

def fixedDistances : List Nat := List.replicate 32 5

/-- The order in which the lengths of the code for lengths are listed. -/
def lengthOrder : List Nat := [16, 17, 18, 0, 8, 7, 9, 6, 10, 5, 11, 4, 12, 3, 13, 2, 14, 1, 15]

def numbers (data : ByteArray) (width : Nat) : Nat → Progress → Option (List Nat × Progress)
  | 0, p => some ([], p)
  | n + 1, p => do
    let (x, p) ← number data p width
    let (xs, p) ← numbers data width n p
    some (x :: xs, p)

/-- Reads lengths, the latest first, until there are enough; every symbol gives one at least. -/
def lengths (data : ByteArray) (c : Code) (wanted : Nat) :
    Nat → List Nat → Progress → Option (List Nat × Progress)
  | 0, _, _ => none
  | rounds + 1, read, p =>
    if read.length = wanted then some (read.reverse, p)
    else if wanted < read.length then none
    else do
      let (symbol, p) ← c.next data p
      if symbol < 16 then lengths data c wanted rounds (symbol :: read) p
      else if symbol = 16 then
        match read with
        | [] => none
        | last :: _ =>
          let (n, p) ← number data p 2
          lengths data c wanted rounds (List.replicate (3 + n) last ++ read) p
      else if symbol = 17 then
        let (n, p) ← number data p 3
        lengths data c wanted rounds (List.replicate (3 + n) 0 ++ read) p
      else
        let (n, p) ← number data p 7
        lengths data c wanted rounds (List.replicate (11 + n) 0 ++ read) p

def ownCodes (data : ByteArray) (p : Progress) : Option (Code × Code × Progress) := do
  let (literals, p) ← number data p 5
  let (distances, p) ← number data p 5
  let (listed, p) ← number data p 4
  if 29 < literals ∨ 29 < distances then none
  else
    let (widths, p) ← numbers data 3 (listed + 4) p
    let widthOf (symbol : Nat) :=
      (((lengthOrder.zip widths).find? fun e => e.1 == symbol).map Prod.snd).getD 0
    let lengthCode ← Code.ofLengths? ((List.range 19).map widthOf)
    let wanted := literals + 257 + (distances + 1)
    let (all, p) ← lengths data lengthCode wanted (wanted + 1) [] p
    let literalCode ← Code.ofLengths? (all.take (literals + 257))
    let distanceCode ← Code.ofLengths? (all.drop (literals + 257))
    some (literalCode, distanceCode, p)

def block (data : ByteArray) (kind : Nat) (p : Progress) : Option Progress := do
  let rounds := 8 * data.size + 1
  match kind with
  | 0 => stored data p
  | 1 => symbols data (← Code.ofLengths? fixedLiterals) (← Code.ofLengths? fixedDistances) rounds p
  | 2 =>
    let (literals, distances, p) ← ownCodes data p
    symbols data literals distances rounds p
  | _ => none

/-- The blocks up to the last; every block takes three bits at least. -/
def blocks (data : ByteArray) : Nat → Progress → Option Progress
  | 0, _ => none
  | rounds + 1, p => do
    let (last, p) ← number data p 1
    let (kind, p) ← number data p 2
    let p ← block data kind p
    if last = 1 then some p else blocks data rounds p

end Inflate

/-- The output of deflated data, unless they are corrupt or end early. -/
def inflate? (data : ByteArray) : Option ByteArray :=
  (Inflate.blocks data (8 * data.size + 1) ⟨0, .empty⟩).map (·.out)

end ContentSpaces.Archive
