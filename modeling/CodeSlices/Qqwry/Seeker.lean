import CodeSlices.Lib.Does
import CodeSlices.Lib.IStream
import CodeSlices.Lib.LittleEndian
import CodeSlices.Qqwry.Address

/-!
# The seeker

`EvaIPSeeker` of `tools/qqwry-ip/evaipseeker.cpp`, over what is in the data file. The members keep
what an earlier read has left in them, and an uninitialised variable has some value. An offset is
an `unsigned int`.
-/

namespace CodeSlices.Qqwry

structure EvaIPSeeker where
  /-- What is in the file `fileName`, when there is one. -/
  disk : Option (List UInt8)
  ipFile : IStream
  firstIndexOffset : UInt32
  lastIndexOffset : UInt32
  byte4 : Fin 4 → UInt8
  byte3 : Fin 3 → UInt8

/-- The values of the variables that the source does not initialise. -/
structure Uninitialised where
  mOffset : UInt32
  flag : UInt8
  areaFlag : UInt8

abbrev Seek := StateT EvaIPSeeker Option

def readInt3 (x : Fin 3 → UInt8) : UInt32 :=
  (x 0).toUInt32 ||| (x 1).toUInt32 <<< 8 ||| (x 2).toUInt32 <<< 16

def readInt4 (x : Fin 4 → UInt8) : UInt32 :=
  (x 0).toUInt32 ||| (x 1).toUInt32 <<< 8 ||| (x 2).toUInt32 <<< 16 ||| (x 3).toUInt32 <<< 24

/-- The array after a read that got some of the bytes asked for. -/
def fill {n : Nat} (old : Fin n → UInt8) (got : List UInt8) : Fin n → UInt8 :=
  fun i => got.getD i (old i)

/-! ### The file -/

/-- `ipFile.open`, where it is not open. -/
def openFile : Seek Unit :=
  modify fun s => if s.ipFile.isOpen then s else { s with ipFile := s.ipFile.openFile s.disk }

def closeFile : Seek Unit := modify fun s => { s with ipFile := s.ipFile.close }

def seekg (offset : UInt32) : Seek Unit :=
  modify fun s => { s with ipFile := s.ipFile.seekg offset.toNat }

/-- `tellg`, whose `-1` is put in an `unsigned int` too. -/
def tellg : Seek UInt32 :=
  modifyGet fun s => ((s.ipFile.tellg.1.map UInt32.ofNat).getD 0xFFFFFFFF,
    { s with ipFile := s.ipFile.tellg.2 })

/-- `ipFile.get(flag)`. -/
def getFlag (flag : UInt8) : Seek UInt8 :=
  modifyGet fun s => (s.ipFile.get.1.getD flag, { s with ipFile := s.ipFile.get.2 })

def putback : Seek Unit := modify fun s => { s with ipFile := s.ipFile.putback }

/-- `ipFile.read(byte4, 4)` and its number. -/
def read4 : Seek UInt32 :=
  modifyGet fun s => (readInt4 (fill s.byte4 (s.ipFile.read 4).1),
    { s with byte4 := fill s.byte4 (s.ipFile.read 4).1, ipFile := (s.ipFile.read 4).2 })

/-- `ipFile.read(byte3, 3)` and its number. -/
def read3 : Seek UInt32 :=
  modifyGet fun s => (readInt3 (fill s.byte3 (s.ipFile.read 3).1),
    { s with byte3 := fill s.byte3 (s.ipFile.read 3).1, ipFile := (s.ipFile.read 3).2 })

/-- `ipFile.getline(tmpstr, STRING_LEN, '\0')`. -/
def getline : Seek (List UInt8) :=
  modifyGet fun s => ((s.ipFile.getline 80 0).1, { s with ipFile := (s.ipFile.getline 80 0).2 })

/-! ### The index -/

def readIP (offset : UInt32) : Seek UInt32 := do
  openFile
  seekg offset
  let tmpIP ← read4
  closeFile
  return tmpIP

def compareIP (ip1 ip2 : UInt32) : ℤ :=
  if ip1 > ip2 then 1 else if ip1 < ip2 then -1 else 0

def getMiddleOffset (start fin : UInt32) : UInt32 :=
  let records := ((fin - start) / 7) >>> 1
  start + (if records = 0 then 1 else records) * 7

/-- How the loop of `searchIP` ends: at an entry with the address, or with `i` not below `j`. -/
inductive Exit
  | equal (mOffset : UInt32)
  | done (mOffset : UInt32)
  deriving DecidableEq

def searchLoop (ip : UInt32) : Nat → UInt32 → UInt32 → UInt32 → Seek Exit
  | 0, _, _, _ => failure
  | fuel + 1, i, j, mOffset =>
      if i < j then do
        let mOffset := getMiddleOffset i j
        let midIP ← readIP mOffset
        let r := compareIP ip midIP
        if r > 0 then searchLoop ip fuel mOffset j mOffset
        else if r < 0 then
          if mOffset = j then searchLoop ip fuel i (j - 7) (j - 7)
          else searchLoop ip fuel i mOffset mOffset
        else return .equal mOffset
      else return .done mOffset

/-- The record offset of the entry at `mOffset`, left in `byte3`. -/
def readOffset (mOffset : UInt32) : Seek UInt32 := do
  openFile
  seekg (mOffset + 4)
  read3

/-- What `searchIP` does where its loop ends. -/
def readRecordOffset (ip : UInt32) : Exit → Seek UInt32
  | .equal mOffset => do
      let offset ← readOffset mOffset
      closeFile
      return offset
  | .done mOffset => do
      let offset ← readOffset mOffset
      let midIP ← readIP offset
      if compareIP ip midIP ≤ 0 then return offset else return 0

def searchIP (u : Uninitialised) (fuel : Nat) (ip : UInt32) : Seek UInt32 := do
  let s ← get
  let startIP ← readIP s.firstIndexOffset
  let _endIP ← readIP s.lastIndexOffset
  let r := compareIP ip startIP
  if r = 0 then return s.firstIndexOffset
  else if r < 0 then return 0
  else
    let exit ← searchLoop ip fuel s.firstIndexOffset s.lastIndexOffset u.mOffset
    readRecordOffset ip exit

/-! ### The records -/

def readString (offset : UInt32) : Seek (List UInt8) := do
  seekg offset
  getline

/-- `"Unknow Area"`. -/
def unknowArea : List UInt8 := "Unknow Area".toUTF8.toList

def readArea (u : Uninitialised) (offset : UInt32) : Seek (List UInt8) := do
  seekg offset
  let flag ← getFlag u.areaFlag
  if flag = 1 ∨ flag = 2 then
    let areaOffset ← read3
    if areaOffset ≠ 0 then readString areaOffset else return unknowArea
  else readString offset

/-- The country behind a redirection of the whole location. -/
def readCountry (flag : UInt8) (countryOffset : UInt32) : Seek (List UInt8) := do
  if flag = 2 then
    let offset ← read3
    let country ← readString offset
    seekg (countryOffset + 4)
    return country
  else readString countryOffset

def getIPRecord (u : Uninitialised) (offset : UInt32) : Seek (List UInt8) := do
  openFile
  seekg (offset + 4)
  let flag ← getFlag u.flag
  if flag = 1 then
    let countryOffset ← read3
    seekg countryOffset
    let flag ← getFlag flag
    let country ← readCountry flag countryOffset
    let areaOffset ← tellg
    let area ← readArea u areaOffset
    closeFile
    return country ++ area
  else if flag = 2 then
    let countryOffset ← read3
    let country ← readString countryOffset
    let area ← readArea u (offset + 8)
    closeFile
    return country ++ area
  else
    putback
    let countryOffset ← tellg
    let country ← readString countryOffset
    let areaOffset ← tellg
    let area ← readArea u areaOffset
    closeFile
    return country ++ area

/-! ### The location of an address -/

def isQQWryExisted : Seek Bool := do
  modify fun s => { s with ipFile := s.ipFile.openFile s.disk }
  let s ← get
  if s.ipFile.fail then return false
  else
    closeFile
    return true

def getIndexOffset : Seek Bool := do
  seekg 0
  let first ← read4
  let last ← read4
  modify fun s => { s with firstIndexOffset := first, lastIndexOffset := last }
  return !(first = 0xFFFFFFFF || last = 0xFFFFFFFF)

def bytesOf (text : List Char) : List UInt8 := text.map fun c => UInt8.ofNat c.toNat

/-- A text is returned, unless `toString` has overrun its buffer. -/
def returned : Option Text → Seek (List UInt8)
  | some text => return bytesOf text.chars
  | none => failure

def locate (u : Uninitialised) (fuel : Nat) (addr : EvaIPAddress) : Seek (List UInt8) := do
  if (← isQQWryExisted) = false then returned addr.toString
  else
    modify fun s => { s with ipFile := s.ipFile.openFile s.disk }
    if (← get).ipFile.fail then returned addr.toString
    else if (← getIndexOffset) = false then
      closeFile
      returned addr.toString
    else
      let offset ← searchIP u fuel addr.mIP.toUInt32
      getIPRecord u offset

/-- `getIPLocation(const unsigned int ip)`. -/
def getIPLocationOfNumber (u : Uninitialised) (fuel : Nat) (ip : UInt32) : Seek (List UInt8) :=
  locate u fuel (EvaIPAddress.ofNumber ip.toUInt64)

/-- `getIPLocation(const string ip)`. -/
def getIPLocation (u : Uninitialised) (fuel : Nat) (ip : Text) : Seek (List UInt8) :=
  let addr := EvaIPAddress.ofText ip
  if addr.isValidIP = false then returned addr.toString
  else locate u fuel addr

end CodeSlices.Qqwry
