import Staut.Zpoline.Rewrite
import Staut.Lib.Hex

/-!
# The code that is rewritten (`rewrite_code`)

`rewrite_code` reads `/proc/self/maps` line by line, and rewrites the mappings that are executable,
but for the page at address 0 and for lines that have `stack` or `vsyscall` somewhere.

* A buffer is the text up to its NUL.
* `MapsLine` is a line of the file, `MapsLine.text` its text.
-/

set_option autoImplicit false

namespace Zpoline

open X86 CSem

/-- At most `n` bytes, up to a newline, and what is left of the file. -/
def gets : Nat → List UInt8 → List UInt8 × List UInt8
  | 0, s => ([], s)
  | _ + 1, [] => ([], [])
  | n + 1, c :: s => if c = 10 then ([c], s) else (c :: (gets n s).1, (gets n s).2)

def fgets (size : Nat) (s : List UInt8) : Option (List UInt8 × List UInt8) :=
  if s = [] then none else some (gets (size - 1) s)

def strstr (buf needle : List UInt8) : Bool := buf.tails.any (needle.isPrefixOf ·)

/-- `strtok` with `" "`: the token, and where the next one is looked for. -/
def strtok (s : List UInt8) : Option (List UInt8 × List UInt8) :=
  let s := s.dropWhile (· == 0x20)
  if s = [] then none else some (s.takeWhile (· != 0x20), (s.dropWhile (· != 0x20)).tail)

/-- `"stack"` and `"vsyscall"`. -/
def stackText : List UInt8 := [0x73, 0x74, 0x61, 0x63, 0x6b]

def vsyscallText : List UInt8 := [0x76, 0x73, 0x79, 0x73, 0x63, 0x61, 0x6c, 0x6c]

/-- `from` and `to` out of `addr`, cut at its `-`. -/
def range (addr : List UInt8) : Int × Int :=
  (Hex.strtol (addr.takeWhile (· != 0x2d)), Hex.strtol (addr.dropWhile (· != 0x2d)).tail)

/-- The second token: the protection. -/
def rewrite_range (D : Disassembler) (syscall_addr : Addr) (addr prot : List UInt8)
    (w : Rewriting) :
    Option Rewriting :=
  if 0x78 ∈ prot then
    let r := range addr
    if r.1 = 0 then some w
    else disassemble_and_rewrite D syscall_addr (BitVec.ofInt 64 r.1) (u64 (r.2 - r.1)) w
  else some w

def rewrite_line (D : Disassembler) (syscall_addr : Addr) (buf : List UInt8)
    (w : Rewriting) : Option Rewriting :=
  if strstr buf stackText = false ∧ strstr buf vsyscallText = false then
    match strtok buf with
    | none => some w
    | some (c, rest) =>
      match strtok rest with
      | none => some w
      | some (prot, _) => rewrite_range D syscall_addr (c.take 64) prot w
  else some w

/-- The loop over the lines; it needs no more turns than the file has bytes. -/
def rewrite_lines (D : Disassembler) (syscall_addr : Addr) : Nat → List UInt8 → Rewriting →
    Option Rewriting
  | 0, _, w => some w
  | fuel + 1, maps, w =>
    match fgets 4096 maps with
    | none => some w
    | some (buf, maps) => do
      let w ← rewrite_line D syscall_addr (buf.takeWhile (· != 0)) w
      rewrite_lines D syscall_addr fuel maps w

def rewrite_code (D : Disassembler) (syscall_addr : Addr) (maps : List UInt8)
    (w : Rewriting) : Option Rewriting :=
  rewrite_lines D syscall_addr maps.length maps w

/-! ## The file -/

def lineText (lo hi prot rest : List UInt8) : List UInt8 :=
  lo ++ 0x2d :: hi ++ 0x20 :: (prot ++ 0x20 :: (rest ++ [10]))

/-- The lines that `rewrite_code` acts on, by their first address, their protection and their text.
-/
def isTarget (lo prot text : List UInt8) : Bool :=
  0x78 ∈ prot && Hex.value lo != 0 && !strstr text stackText && !strstr text vsyscallText

/-- A line of the file: the two addresses in hexadecimal, the protection, and the rest. What is
rewritten is below `2 ^ 48`; the kernel's `[vsyscall]` line is not. -/
structure MapsLine where
  lo : List UInt8
  hi : List UInt8
  prot : List UInt8
  rest : List UInt8
  lo_ne : lo ≠ []
  lo_hex : ∀ c ∈ lo, Hex.isxdigit c = true
  hi_hex : ∀ c ∈ hi, Hex.isxdigit c = true
  prot_ne : prot ≠ []
  prot_text : ∀ c ∈ prot, c ≠ 0 ∧ c ≠ 10 ∧ c ≠ 0x20
  rest_text : ∀ c ∈ rest, c ≠ 0 ∧ c ≠ 10
  addr_len : lo.length + hi.length < 64
  len : lo.length + hi.length + prot.length + rest.length + 4 < 4096
  le : Hex.value lo ≤ Hex.value hi
  hi_lt : isTarget lo prot (lineText lo hi prot rest) = true → Hex.value hi ≤ 2 ^ 48

namespace MapsLine

def start (l : MapsLine) : Addr := BitVec.ofNat 64 (Hex.value l.lo)

def size (l : MapsLine) : Nat := Hex.value l.hi - Hex.value l.lo

def addr (l : MapsLine) : List UInt8 := l.lo ++ 0x2d :: l.hi

def text (l : MapsLine) : List UInt8 := lineText l.lo l.hi l.prot l.rest

def target (l : MapsLine) : Bool := isTarget l.lo l.prot l.text

end MapsLine

def mapsText (ls : List MapsLine) : List UInt8 := ls.flatMap MapsLine.text

/-- The addresses of the system call instructions of the program, as the disassembler finds them. -/
def sitesOf (D : Disassembler) (mem : Memory) (syscall_addr : Addr) (l : MapsLine) : List Addr :=
  (sites D mem syscall_addr l.start l.size).map fun o => l.start + BitVec.ofNat 64 o

def allSites (D : Disassembler) (mem : Memory) (syscall_addr : Addr)
    (ls : List MapsLine) : List Addr :=
  (ls.filter MapsLine.target).flatMap (sitesOf D mem syscall_addr)

end Zpoline
