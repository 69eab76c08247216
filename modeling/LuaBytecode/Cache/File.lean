import LuaBytecode.Cache

/-! The cache as bytes: a line that tells the format, and for each entry its key, the time of its
last use, the length of its bytecode, and the bytecode. -/

namespace LuaBytecode.Cache

def fileMark : Bytes := formatVersion ++ [byte '\n']

def writeEntry (k : Key) (e : Entry) : Bytes :=
  k.toList ++ ByteOrder.little.word .eight (Width.eight.unsigned e.usedAt) ++
    ByteOrder.little.word .eight e.bytecode.length ++ e.bytecode

def toFile (c : Cache) : Bytes := fileMark ++ c.entries.flatMap fun (k, e) => writeEntry k e

def entryHeadSize : Nat := 48

def readEntry? (s : Bytes) : Option ((Key × Entry) × Bytes) :=
  let length := ByteOrder.little.decode ((s.drop 40).take 8)
  let rest := s.drop entryHeadSize
  if s.length < entryHeadSize || rest.length < length then none
  else
    let usedAt := Width.eight.signed (ByteOrder.little.decode ((s.drop 32).take 8))
    some ((.ofBytes (s.take 32), ⟨rest.take length, usedAt⟩), rest.drop length)

def readEntries? : (room : Nat) → Bytes → Option (List (Key × Entry))
  | _, [] => some []
  | 0, _ => none
  | room + 1, s => do
      let (entry, rest) ← readEntry? s
      return entry :: (← readEntries? room rest)

def ofFile? (file : Bytes) : Option Cache := do
  if file = [] then return empty
  let body ← Bytes.cut? fileMark file
  let entries ← readEntries? body.length body
  if h : (entries.map Prod.fst).Nodup then some ⟨entries, h⟩ else none

end LuaBytecode.Cache
