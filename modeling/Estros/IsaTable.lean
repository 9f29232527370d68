import Estros.CLibrary

/-!
The instruction set of isa.h: the formats, the table of instructions, and the registers of
the calling convention.
-/

namespace Estros

inductive XmInstFormat where
  | r4r4r4i4o8
  | r4r4i8o8
  /-- one of the two above, by the high bit of the opcode -/
  | r4r4i8o8Ifhbs
  | r4r4r4r4 | aa16o8 | ra16o8 | r4u4ra8o8 | r8r8ra8o8 | u16o8
  | f4f4f4f4 | r4f4f4f4
  | d8
  deriving DecidableEq

inductive XmCb0 where
  | integer | float | debug
  deriving DecidableEq

def XmCb0.code : XmCb0 → UInt8
  | .integer => 0
  | .float => 1
  | .debug => 15

def xmGetCb0FromFormat : XmInstFormat → XmCb0
  | .r4r4r4i4o8 | .r4r4i8o8 | .r4r4i8o8Ifhbs | .r4r4r4r4 | .aa16o8 | .ra16o8 | .r4u4ra8o8
  | .r8r8ra8o8 | .u16o8 => .integer
  | .f4f4f4f4 | .r4f4f4f4 => .float
  | .d8 => .debug

inductive XmInst where
  | add | sub | mul | div | rem | imul | and | xor | or | shl | shr | pcnt | clz | clo | bswap |
  ipcnt | stb | stw | stl | stq | ldb | ldw | ldl | ldq | lea | cmp | cmpkp | memcpy | memmov |
  memset | memchr | memchrf | strcpy | strcat | strpbrk | strncpy | strncat | strchr | strnchr |
  indtab | indtab8 | chtree | chtreeunchk | jmp | jmprel | call | ret | bz | b | bgzs | bgpc |
  bgpcrela | bo | bgoz | bemax | bet0 | bet1 | bet2 | bet3 | bet4 | bet5 | bet6 | bet7 | fadd3 |
  fsub3 | fdiv3 | fmul3 | fmod3 | fmadd | fmsub | fsqrt3 | fhyp | fnorm | fabs | fsign | fnabs |
  fcos | fsin | ftan | facos | fatan | fasin | fcbrt | fy0 | fy1 | fj0 | fj1 | fexp | frsqrt |
  frcbrt | fpow2 | fpow3 | fmax | fmin | fclamp | finv | fconstpi | fconste | fconstpi2 | frad |
  fdeg | fsel | fsel2 | fgamma | flgamma | fround | ffloor | fceil | faddcrr | fsubcrr | fdivcrr |
  fmulcrr | fsqrtcrr | faddcri | fsubcri | fdivcri | fmulcri | fsqrtcri | fcvti | icvtf | fcvtri |
  icvtrf | halt
  deriving DecidableEq

/-- `struct xm_inst_table_entry`, with the handler that goes by the same name. -/
structure XmInstTableEntry where
  inst : XmInst
  name : String
  format : XmInstFormat
  op : Word
  deriving DecidableEq

def XmInstTableEntry.elem (inst : XmInst) (name : String) (format : XmInstFormat) (op : Word) :
    XmInstTableEntry := ⟨inst, name, format, op⟩

def xmInstTable : List XmInstTableEntry :=
  [.elem .add "add" .r4r4i8o8Ifhbs 0x00, .elem .sub "sub" .r4r4i8o8Ifhbs 0x01,
    .elem .mul "mul" .r4r4i8o8Ifhbs 0x02, .elem .div "div" .r4r4i8o8Ifhbs 0x03,
    .elem .rem "rem" .r4r4i8o8Ifhbs 0x04, .elem .imul "imul" .r4r4i8o8Ifhbs 0x05,
    .elem .and "and" .r4r4i8o8Ifhbs 0x06, .elem .xor "xor" .r4r4i8o8Ifhbs 0x07,
    .elem .or "or" .r4r4i8o8Ifhbs 0x08, .elem .shl "shl" .r4r4i8o8Ifhbs 0x09,
    .elem .shr "shr" .r4r4i8o8Ifhbs 0x0a, .elem .pcnt "pcnt" .r4r4i8o8Ifhbs 0x0b,
    .elem .clz "clz" .r4r4i8o8Ifhbs 0x0c, .elem .clo "clo" .r4r4i8o8Ifhbs 0x0d,
    .elem .bswap "bswap" .r4r4i8o8Ifhbs 0x0e, .elem .ipcnt "ipcnt" .r4r4i8o8Ifhbs 0x0f,
    .elem .stb "stb" .r4r4i8o8Ifhbs 0x10, .elem .stw "stw" .r4r4i8o8Ifhbs 0x11,
    .elem .stl "stl" .r4r4i8o8Ifhbs 0x12, .elem .stq "stq" .r4r4i8o8Ifhbs 0x13,
    .elem .ldb "ldb" .r4r4i8o8Ifhbs 0x14, .elem .ldw "ldw" .r4r4i8o8Ifhbs 0x15,
    .elem .ldl "ldl" .r4r4i8o8Ifhbs 0x16, .elem .ldq "ldq" .r4r4i8o8Ifhbs 0x17,
    .elem .lea "lea" .r4r4i8o8Ifhbs 0x18, .elem .cmp "cmp" .r4r4i8o8Ifhbs 0x20,
    .elem .cmpkp "cmpkp" .r4r4i8o8Ifhbs 0x21, .elem .memcpy "memcpy" .r4r4r4r4 0x30,
    .elem .memmov "memmov" .r4r4r4r4 0x31, .elem .memset "memset" .r4r4r4r4 0x32,
    .elem .memchr "memchr" .r4r4r4r4 0x33, .elem .memchrf "memchrf" .r4r4r4r4 0x34,
    .elem .strcpy "strcpy" .r4r4r4r4 0x35, .elem .strcat "strcat" .r4r4r4r4 0x36,
    .elem .strpbrk "strpbrk" .r4r4r4r4 0x37, .elem .strncpy "strncpy" .r4r4r4r4 0x38,
    .elem .strncat "strncat" .r4r4r4r4 0x39, .elem .strchr "strchr" .r4r4r4r4 0x3a,
    .elem .strnchr "strnchr" .r4r4r4r4 0x3b, .elem .indtab "indtab" .r4r4r4r4 0x3c,
    .elem .indtab8 "indtab8" .r4r4r4r4 0x3d, .elem .chtree "chtree" .r4r4r4r4 0x3e,
    .elem .chtreeunchk "chtreeunchk" .r4r4r4r4 0x3e, .elem .jmp "jmp" .aa16o8 0x40,
    .elem .jmprel "jmprel" .ra16o8 0x41, .elem .call "call" .r4u4ra8o8 0x42,
    .elem .ret "ret" .u16o8 0x43, .elem .bz "bz" .r4u4ra8o8 0x50, .elem .b "b" .r4u4ra8o8 0x51,
    .elem .bgzs "bgzs" .r4u4ra8o8 0x52, .elem .bgpc "bgpc" .r4u4ra8o8 0x53,
    .elem .bgpcrela "bgpcrela" .r4u4ra8o8 0x54, .elem .bo "bo" .r4u4ra8o8 0x55,
    .elem .bgoz "bgoz" .r4u4ra8o8 0x56, .elem .bemax "bemax" .r4u4ra8o8 0x57,
    .elem .bet0 "bet0" .r4u4ra8o8 0x58, .elem .bet1 "bet1" .r4u4ra8o8 0x59,
    .elem .bet2 "bet2" .r4u4ra8o8 0x5a, .elem .bet3 "bet3" .r4u4ra8o8 0x5b,
    .elem .bet4 "bet4" .r4u4ra8o8 0x5c, .elem .bet5 "bet5" .r4u4ra8o8 0x5d,
    .elem .bet6 "bet6" .r4u4ra8o8 0x5e, .elem .bet7 "bet7" .r4u4ra8o8 0x5f,
    .elem .fadd3 "fadd3" .f4f4f4f4 0x00, .elem .fsub3 "fsub3" .f4f4f4f4 0x01,
    .elem .fdiv3 "fdiv3" .f4f4f4f4 0x02, .elem .fmul3 "fmul3" .f4f4f4f4 0x03,
    .elem .fmod3 "fmod3" .f4f4f4f4 0x04, .elem .fmadd "fmadd" .f4f4f4f4 0x05,
    .elem .fmsub "fmsub" .f4f4f4f4 0x06, .elem .fsqrt3 "fsqrt3" .f4f4f4f4 0x07,
    .elem .fhyp "fhyp" .f4f4f4f4 0x08, .elem .fnorm "fnorm" .f4f4f4f4 0x09,
    .elem .fabs "fabs" .f4f4f4f4 0x0a, .elem .fsign "fsign" .f4f4f4f4 0x0b,
    .elem .fnabs "fnabs" .f4f4f4f4 0x0c, .elem .fcos "fcos" .f4f4f4f4 0x0d,
    .elem .fsin "fsin" .f4f4f4f4 0x0e, .elem .ftan "ftan" .f4f4f4f4 0x0f,
    .elem .facos "facos" .f4f4f4f4 0x10, .elem .fatan "fatan" .f4f4f4f4 0x11,
    .elem .fasin "fasin" .f4f4f4f4 0x12, .elem .fcbrt "fcbrt" .f4f4f4f4 0x13,
    .elem .fy0 "fy0" .f4f4f4f4 0x14, .elem .fy1 "fy1" .f4f4f4f4 0x15,
    .elem .fj0 "fj0" .f4f4f4f4 0x16, .elem .fj1 "fj1" .f4f4f4f4 0x17,
    .elem .fexp "fexp" .f4f4f4f4 0x18, .elem .frsqrt "frsqrt" .f4f4f4f4 0x19,
    .elem .frcbrt "frcbrt" .f4f4f4f4 0x1a, .elem .fpow2 "fpow2" .f4f4f4f4 0x1b,
    .elem .fpow3 "fpow3" .f4f4f4f4 0x1c, .elem .fmax "fmax" .f4f4f4f4 0x1d,
    .elem .fmin "fmin" .f4f4f4f4 0x1e, .elem .fclamp "fclamp" .f4f4f4f4 0x1f,
    .elem .finv "finv" .f4f4f4f4 0x20, .elem .fconstpi "fconstpi" .f4f4f4f4 0x21,
    .elem .fconste "fconste" .f4f4f4f4 0x22, .elem .fconstpi2 "fconstpi2" .f4f4f4f4 0x23,
    .elem .frad "frad" .f4f4f4f4 0x24, .elem .fdeg "fdeg" .f4f4f4f4 0x25,
    .elem .fsel "fsel" .f4f4f4f4 0x26, .elem .fsel2 "fsel2" .f4f4f4f4 0x27,
    .elem .fgamma "fgamma" .f4f4f4f4 0x28, .elem .flgamma "flgamma" .f4f4f4f4 0x29,
    .elem .fround "fround" .f4f4f4f4 0x2a, .elem .ffloor "ffloor" .f4f4f4f4 0x2b,
    .elem .fceil "fceil" .f4f4f4f4 0x2c, .elem .faddcrr "faddcrr" .f4f4f4f4 0x30,
    .elem .fsubcrr "fsubcrr" .f4f4f4f4 0x31, .elem .fdivcrr "fdivcrr" .f4f4f4f4 0x32,
    .elem .fmulcrr "fmulcrr" .f4f4f4f4 0x33, .elem .fsqrtcrr "fsqrtcrr" .f4f4f4f4 0x34,
    .elem .faddcri "faddcri" .f4f4f4f4 0x40, .elem .fsubcri "fsubcri" .f4f4f4f4 0x41,
    .elem .fdivcri "fdivcri" .f4f4f4f4 0x42, .elem .fmulcri "fmulcri" .f4f4f4f4 0x43,
    .elem .fsqrtcri "fsqrtcri" .f4f4f4f4 0x44, .elem .fcvti "fcvti" .r4f4f4f4 0x80,
    .elem .icvtf "icvtf" .r4f4f4f4 0x81, .elem .fcvtri "fcvtri" .r4f4f4f4 0x82,
    .elem .icvtrf "icvtrf" .r4f4f4f4 0x83, .elem .halt "halt" .d8 0x0f]

def xmAbiT0 : Nat := 0
def xmAbiT1 : Nat := 1
def xmAbiT2 : Nat := 2
def xmAbiT3 : Nat := 3
def xmAbiT4 : Nat := 4
def xmAbiT5 : Nat := 5
def xmAbiT6 : Nat := 6
def xmAbiT7 : Nat := 7
def xmAbiA0 : Nat := 8
def xmAbiA3 : Nat := 11
def xmAbiRa : Nat := 12
def xmAbiBp : Nat := 13
def xmAbiSp : Nat := 14
def xmAbiTp : Nat := 15

def flagsBitN : Word := 1
def flagsBitZ : Word := 2
def flagsBitC : Word := 4
def flagsBitV : Word := 8
def flagsBitO : Word := 16
def flagsBitPg : Word := 32

end Estros
