import Estros.IsaSimulator

/-!
The disassembler isa/dis.c: what it prints for the bytes of a file. A plain `char` is signed,
so that a byte `0xff` where an instruction begins is taken for the end of the file.
-/

namespace Estros

def signedDecimal (value : Int) : List UInt8 :=
  if value < 0 then 45 :: decimal value.natAbs else decimal value.natAbs

def padded (name : List UInt8) : List UInt8 := name ++ List.replicate (8 - name.length) 32

def disRegister (file : String) (number : Fin 16) : List UInt8 :=
  ascii file ++ signedDecimal number.val

def disChar (byte : UInt8) : List UInt8 := signedDecimal byte.toBitVec.toInt

/-- A letter of a condition, or a blank. -/
def disLetter (set : Bool) (letter : UInt8) : UInt8 := if set then letter else 32

def disOperands (ob : InstBytes) (format : XmInstFormat) : List UInt8 :=
  let comma := ascii ","
  match format with
  | .r4r4i8o8Ifhbs =>
      if ob.id3 &&& 0x80 ≠ 0 then
        disRegister "$r" (lowNibble ob.id1) ++ comma ++ disRegister "$r" (highNibble ob.id1) ++
          comma ++ disChar ob.id2
      else
        disRegister "$r" (lowNibble ob.id1) ++ comma ++ disRegister "$r" (highNibble ob.id1) ++
          comma ++ disRegister "$r" (lowNibble ob.id2) ++ comma ++
          signedDecimal (highNibble ob.id2).val
  | .r4u4ra8o8 =>
      let cc := ob.id1 >>> 4
      disRegister "$r" (lowNibble ob.id1) ++ comma ++ disChar ob.id2 ++ comma ++ ascii "?" ++
        [disLetter (cc &&& 0x01 ≠ 0) 33, disLetter (cc &&& 0x02 ≠ 0) 110,
          disLetter (cc &&& 0x04 ≠ 0) 122, disLetter (cc &&& 0x08 ≠ 0) 99]
  | .r4r4r4r4 =>
      disRegister "$r" (lowNibble ob.id1) ++ comma ++ disRegister "$r" (highNibble ob.id1) ++
        comma ++ disRegister "$r" (lowNibble ob.id2) ++ comma ++
        disRegister "$r" (highNibble ob.id2)
  | .f4f4f4f4 =>
      disRegister "$f" (lowNibble ob.id1) ++ comma ++ disRegister "$f" (highNibble ob.id1) ++
        comma ++ disRegister "$f" (lowNibble ob.id2) ++ comma ++
        disRegister "$f" (highNibble ob.id2)
  | .u16o8 => []
  | _ => ascii "<invalid>"

def disPrintFormat (ob : InstBytes) (name : String) (format : XmInstFormat) : List UInt8 :=
  ascii "\t" ++ padded (ascii name) ++ disOperands ob format ++ ascii "\n"

/-- The entry that is printed for an integer instruction: the first one with its opcode, of
whatever class. -/
def disFindInst (ob : InstBytes) : Option XmInstTableEntry :=
  xmInstTable.find? fun entry => entry.op = ofByte (ob.id3 &&& 0x7f)

def disPrintInst (ob : InstBytes) : List UInt8 :=
  match disFindInst ob with
  | some entry => disPrintFormat ob entry.name entry.format
  | none => []

/-- The classes of which nothing but the first byte is read. -/
def disSkips (ob0 : UInt8) : Bool := [1, 3, 4].contains (ob0 &&& 0x0f)

/-- `dis_disassemble`; there is no result if it aborts. -/
def disDisassemble : List UInt8 → Option (List UInt8)
  | [] => some []
  | ob0 :: rest =>
      if ob0 = 0xff then some []
      else if ob0 &&& 0x0f = XmCb0.integer.code then
        match rest with
        | ob1 :: ob2 :: ob3 :: behind =>
            (disDisassemble behind).map (disPrintInst ⟨ob0, ob1, ob2, ob3⟩ ++ ·)
        -- behind the end of the file `fgetc` returns `EOF`
        | short => some (disPrintInst ⟨ob0, short.getD 0 0xff, short.getD 1 0xff, 0xff⟩)
      else if disSkips ob0 then disDisassemble rest
      else none

end Estros
