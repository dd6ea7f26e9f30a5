import Osce.Lib.Prog
import Osce.Lib.Bytes

/-!
Physical pages and page tables: `kalloc.c`, `vm.c` and the part of `exec.c` that builds an
address space, as programs over the physical memory. A physical page is named by its number,
which stands for its physical address and for the address at which the kernel reaches it.
A page directory is the number of its page, and a pointer to a page table entry is a
page and an index. Addresses and sizes are `uint`s, so that sums are taken modulo 2^32.
-/
namespace Osce.Vm
open Osce.Lib

def PGSIZE : Nat := 4096
def NPDENTRIES : Nat := 1024
def NPTENTRIES : Nat := 1024
def MAXARG : Nat := 32
def EXTMEM : Nat := 0x100000
def PHYSTOP : Nat := 0xE000000
def DEVSPACE : Nat := 0xFE000000
def KERNBASE : Nat := 0x80000000
def KERNLINK : Nat := KERNBASE + EXTMEM
/-- `data` and `end`, where the linker has put the kernel's data and its end. -/
def kdata : Nat := 0x80109000
def kend : Nat := 0x8011531C

def V2P (a : Nat) : Nat := a - KERNBASE
/-- The first page that `kfree` accepts, and the number behind the last. -/
def firstPage : Nat := (V2P kend + PGSIZE - 1) / PGSIZE
def lastPage : Nat := PHYSTOP / PGSIZE

/-- A `uint`. -/
def wrap (x : Nat) : Nat := x % 2 ^ 32

def PGROUNDUP (a : Nat) : Nat := wrap (a + PGSIZE - 1) / PGSIZE * PGSIZE
def PGROUNDDOWN (a : Nat) : Nat := a / PGSIZE * PGSIZE
def PDX (va : Nat) : Nat := va / 2 ^ 22 % NPDENTRIES
def PTX (va : Nat) : Nat := va / PGSIZE % NPTENTRIES

def PTE_W : Nat := 2
def PTE_U : Nat := 4

/-- `pte & PTE_P` and `pte & PTE_U` -/
def isPresent (pte : Nat) : Bool := pte % 2 = 1
def isUser (pte : Nat) : Bool := pte / 4 % 2 = 1
/-- `PTE_ADDR`, as the number of the page. -/
def PTE_ADDR (pte : Nat) : Nat := pte / PGSIZE
def PTE_FLAGS (pte : Nat) : Nat := pte % PGSIZE
/-- `pa | flags | PTE_P` -/
def mkPte (pa flags : Nat) : Nat := PGSIZE * pa + (flags / 2 * 2 + 1)
/-- `pte & ~PTE_U` -/
def clearUser (pte : Nat) : Nat := pte - 4 * (pte / 4 % 2)

abbrev Page := Bytes PGSIZE

inductive VmOp where
  /-- `kalloc`; `table` says that the caller is `walkpgdir`. -/
  | kalloc (table : Bool)
  | kfree (page : Nat)
  | entry (page i : Nat)
  | setEntry (page i pte : Nat)
  | memset (page : Nat) (b : UInt8)
  | memmove (dst src : Nat)
  /-- `readi` in `loaduvm` stores bytes of the file in a page, for an address in a page directory. -/
  | load (pgdir va page : Nat) (bytes : List UInt8)
  /-- `memmove` in `copyout`. -/
  | store (page off : Nat) (bytes : List UInt8)
  | panic (message : String)

@[reducible] def VmOp.Ans : VmOp → Type
  | .kalloc _ => Option Nat
  | .entry _ _ => Nat
  | .panic _ => Empty
  | _ => Unit

abbrev VmSig : Sig := ⟨VmOp,VmOp.Ans⟩
abbrev VmProg := Prog VmSig

def perform (op : VmOp) : VmProg op.Ans := Prog.perform (S := VmSig) op
def panic {α : Type} (message : String) : VmProg α := .call (S := VmSig) (.panic message) Empty.elim

/-- The physical memory, the list of free pages and how often `kalloc` has been called. -/
structure Mem where
  page : Nat → Page
  freelist : List Nat
  calls : Nat

/-- Which calls of `kalloc` find no page although the list has one, and whether a call that finds
    none returns 0; a run in which one may not is cut off there. -/
structure Env where
  refuse : Nat → Bool
  may : Bool → Bool

def filled (b : UInt8) : Page := ⟨fun _ => b⟩

/-- The kernel maps the page, and may write to it. Page numbers for which `p2v` wraps around to user
    addresses count as not mapped. -/
def writable (page : Nat) : Bool := page < EXTMEM / PGSIZE || V2P kdata / PGSIZE ≤ page && page < lastPage

def Mem.setPage (m : Mem) (x : Nat) (pg : Page) : Mem := { m with page := Function.update m.page x pg }

def handle (env : Env) : Handler VmSig Mem
  | .kalloc table, m =>
    match if env.refuse m.calls then [] else m.freelist with
    | r :: rest => .ok (some r,{ m with freelist := rest, calls := m.calls + 1 })
    | [] => if env.may table then .ok (none,{ m with calls := m.calls + 1 }) else .error .sleep
  | .kfree x, m =>
    if x < firstPage ∨ lastPage ≤ x then .error (.panic "kfree")
    -- Fill with junk to catch dangling refs.
    else .ok ((),{ m.setPage x (filled 1) with freelist := x :: m.freelist })
  | .entry x i, m => .ok ((m.page x).word i,m)
  | .setEntry x i pte, m => .ok ((),m.setPage x ((m.page x).setWord i pte))
  | .memset x b, m => .ok ((),m.setPage x (filled b))
  | .memmove dst src, m => .ok ((),m.setPage dst (m.page src))
  | .load _ _ x bytes, m =>
    if bytes = [] then .ok ((),m)
    else if writable x then .ok ((),m.setPage x ((m.page x).write 0 bytes)) else .error (.panic "trap")
  | .store x off bytes, m =>
    if writable x then .ok ((),m.setPage x ((m.page x).write off bytes)) else .error (.panic "trap")
  | .panic message, _ => .error (.panic message)

/-- Return the address of the PTE in page table pgdir that corresponds to virtual address va.
    If alloc!=0, create any required page table pages. -/
def walkpgdir (pgdir va : Nat) (alloc : Bool) : VmProg (Option (Nat × Nat)) := do
  let pde ← perform (.entry pgdir (PDX va))
  if isPresent pde then pure (some (PTE_ADDR pde,PTX va))
  else if alloc = false then pure none
  else do
    let pgtab ← perform (.kalloc true)
    match pgtab with
    | none => pure none
    | some pgtab => do
      -- Make sure all those PTE_P bits are zero.
      perform (.memset pgtab 0)
      perform (.setEntry pgdir (PDX va) (mkPte pgtab (PTE_W + PTE_U)))
      pure (some (pgtab,PTX va))

/-- The loop of `mappages`, with the number of pages that are left. -/
def mappages_from (pgdir perm : Nat) : Nat → Nat → Nat → VmProg Int
  | 0, _, _ => pure 0
  | left + 1, a, pa => do
    let pte ← walkpgdir pgdir a true
    match pte with
    | none => pure (-1)
    | some (t,i) => do
      let old ← perform (.entry t i)
      if isPresent old then panic "remap"
      else do
        perform (.setEntry t i (mkPte pa perm))
        mappages_from pgdir perm left (wrap (a + PGSIZE)) (wrap ((pa + 1) * PGSIZE) / PGSIZE)

/-- Create PTEs for virtual addresses starting at va that refer to physical addresses starting
    at the page pa. -/
def mappages (pgdir va size pa perm : Nat) : VmProg Int :=
  let a := PGROUNDDOWN va
  let last := PGROUNDDOWN (wrap (va + size + (2 ^ 32 - 1)))
  mappages_from pgdir perm (wrap (last + (2 ^ 32 - a)) / PGSIZE + 1) a pa

structure Kmap where
  virt : Nat
  phys_start : Nat
  phys_end : Nat
  perm : Nat

/-- The kernel's mappings, which are present in every process's page table. -/
def kmap : List Kmap :=
  [⟨KERNBASE,0,EXTMEM,PTE_W⟩, -- I/O space
   ⟨KERNLINK,V2P KERNLINK,V2P kdata,0⟩, -- kern text+rodata
   ⟨kdata,V2P kdata,PHYSTOP,PTE_W⟩, -- kern data+memory
   ⟨DEVSPACE,DEVSPACE,0,PTE_W⟩] -- more devices

def setupkvm_from (pgdir : Nat) : List Kmap → VmProg (Option Nat)
  | [] => pure (some pgdir)
  | k :: rest => do
    let r ← mappages pgdir k.virt (wrap (k.phys_end + (2 ^ 32 - k.phys_start))) (k.phys_start / PGSIZE) k.perm
    if r < 0 then pure none else setupkvm_from pgdir rest

/-- Set up kernel part of a page table. -/
@[irreducible] def setupkvm : VmProg (Option Nat) := do
  let pgdir ← perform (.kalloc false)
  match pgdir with
  | none => pure none
  | some pgdir => do
    perform (.memset pgdir 0)
    if wrap (PHYSTOP + KERNBASE) > DEVSPACE then panic "PHYSTOP too high"
    else setupkvm_from pgdir kmap

/-- The loop of `deallocuvm`; each turn passes at least one page. -/
def deallocuvm_from (pgdir oldsz : Nat) : Nat → Nat → VmProg Unit
  | 0, _ => pure ()
  | turns + 1, a =>
    if a < oldsz then do
      let pte ← walkpgdir pgdir a false
      match pte with
      | none => deallocuvm_from pgdir oldsz turns (wrap (a + (NPTENTRIES - 1) * PGSIZE + PGSIZE))
      | some (t,i) => do
        let w ← perform (.entry t i)
        if isPresent w then
          if PTE_ADDR w = 0 then panic "kfree"
          else do
            perform (.kfree (PTE_ADDR w))
            perform (.setEntry t i 0)
            deallocuvm_from pgdir oldsz turns (wrap (a + PGSIZE))
        else deallocuvm_from pgdir oldsz turns (wrap (a + PGSIZE))
    else pure ()

/-- Deallocate user pages to bring the process size from oldsz to newsz. Returns the new process size. -/
def deallocuvm (pgdir oldsz newsz : Nat) : VmProg Nat := do
  if newsz ≥ oldsz then pure oldsz
  else do
    deallocuvm_from pgdir oldsz (oldsz / PGSIZE + 1) (PGROUNDUP newsz)
    pure newsz

/-- The loop of `allocuvm`; `false` when memory is out. -/
def allocuvm_from (pgdir newsz : Nat) : Nat → Nat → VmProg Bool
  | 0, _ => pure true
  | turns + 1, a =>
    if a < newsz then do
      let mem ← perform (.kalloc false)
      match mem with
      | none => pure false
      | some mem => do
        perform (.memset mem 0)
        -- what `mappages` returns is not looked at
        let _ ← mappages pgdir a PGSIZE mem (PTE_W + PTE_U)
        allocuvm_from pgdir newsz turns (wrap (a + PGSIZE))
    else pure true

/-- Allocate page tables and physical memory to grow process from oldsz to newsz, which need not be
    page aligned. Returns new size or 0 on error. -/
@[irreducible] def allocuvm (pgdir oldsz newsz : Nat) : VmProg Nat := do
  if newsz ≥ KERNBASE then pure 0
  else if newsz < oldsz then pure oldsz
  else do
    let done ← allocuvm_from pgdir newsz (newsz / PGSIZE + 1) (PGROUNDUP oldsz)
    if done then pure newsz
    else do
      let _ ← deallocuvm pgdir newsz oldsz
      pure 0

def freevm_from (pgdir : Nat) : List Nat → VmProg Unit
  | [] => pure ()
  | i :: rest => do
    let pde ← perform (.entry pgdir i)
    if isPresent pde then do
      perform (.kfree (PTE_ADDR pde))
      freevm_from pgdir rest
    else freevm_from pgdir rest

/-- Free a page table and all the physical memory pages in the user part. -/
def freevm (pgdir : Nat) : VmProg Unit := do
  let _ ← deallocuvm pgdir KERNBASE 0
  freevm_from pgdir (List.range NPDENTRIES)
  perform (.kfree pgdir)

def clearpteu (pgdir uva : Nat) : VmProg Unit := do
  let pte ← walkpgdir pgdir uva false
  match pte with
  | none => panic "clearpteu"
  | some (t,i) => do
    let w ← perform (.entry t i)
    perform (.setEntry t i (clearUser w))

/-- The loop of `copyuvm`; `false` when it goes to `bad`. -/
def copyuvm_from (pgdir d sz : Nat) : Nat → Nat → VmProg Bool
  | 0, _ => pure true
  | turns + 1, i =>
    if i < sz then do
      let pte ← walkpgdir pgdir i false
      match pte with
      | none => panic "copyuvm: pte should exist"
      | some (t,j) => do
        let w ← perform (.entry t j)
        if isPresent w = false then panic "copyuvm: page not present"
        else do
          let mem ← perform (.kalloc false)
          match mem with
          | none => pure false
          | some mem => do
            perform (.memmove mem (PTE_ADDR w))
            let r ← mappages d i PGSIZE mem (PTE_FLAGS w)
            if r < 0 then pure false else copyuvm_from pgdir d sz turns (wrap (i + PGSIZE))
    else pure true

/-- Given a parent process's page table, create a copy of it for a child. -/
def copyuvm (pgdir sz : Nat) : VmProg (Option Nat) := do
  let d ← setupkvm
  match d with
  | none => pure none
  | some d => do
    let done ← copyuvm_from pgdir d sz (sz / PGSIZE + 1) 0
    if done then pure (some d)
    else do
      freevm d
      pure none

/-- `*pte` in `uva2ka` when `walkpgdir` has returned the null pointer: the word at the address 0 of
    the process that runs, whose page directory is `cur`. -/
def loadNull (cur : Nat) : VmProg Nat := do
  let pte ← walkpgdir cur 0 false
  match pte with
  | none => panic "trap"
  | some (t,i) => do
    let w ← perform (.entry t i)
    if isPresent w then perform (.entry (PTE_ADDR w) 0) else panic "trap"

/-- `*pte` in `uva2ka` -/
def loadPte (cur : Nat) : Option (Nat × Nat) → VmProg Nat
  | some (t,i) => perform (.entry t i)
  | none => loadNull cur

def uva2ka (cur pgdir uva : Nat) : VmProg (Option Nat) := do
  let pte ← walkpgdir pgdir uva false
  let w ← loadPte cur pte
  if isPresent w && isUser w then pure (some (PTE_ADDR w)) else pure none

/-- The loop of `copyout`; each turn copies at least one byte. -/
def copyout_from (cur pgdir : Nat) : Nat → Nat → List UInt8 → VmProg Int
  | 0, _, _ => pure 0
  | turns + 1, va, p =>
    if p.length > 0 then do
      let pa0 ← uva2ka cur pgdir (PGROUNDDOWN va)
      match pa0 with
      | none => pure (-1)
      | some pa0 => do
        let n := min (PGSIZE - (va - PGROUNDDOWN va)) p.length
        perform (.store pa0 (va - PGROUNDDOWN va) (p.take n))
        copyout_from cur pgdir turns (wrap (PGROUNDDOWN va + PGSIZE)) (p.drop n)
    else pure 0

/-- Copy bytes to user address va in page table pgdir. -/
def copyout (cur pgdir va : Nat) (p : List UInt8) : VmProg Int := copyout_from cur pgdir p.length va p

/-- `readi` of a regular file: the bytes, or `none` for -1. -/
def readi (file : List UInt8) (off n : Nat) : Option (List UInt8) :=
  if off > file.length ∨ wrap (off + n) < off then none
  else some ((file.drop off).take n)

/-- The loop of `loaduvm`; each turn but the last loads a page. -/
def loaduvm_from (pgdir addr : Nat) (file : List UInt8) (offset sz : Nat) : Nat → Nat → VmProg Int
  | 0, _ => pure 0
  | turns + 1, i =>
    if i < sz then do
      let pte ← walkpgdir pgdir (wrap (addr + i)) false
      match pte with
      | none => panic "loaduvm: address should exist"
      | some (t,j) => do
        let w ← perform (.entry t j)
        let n := min (sz - i) PGSIZE
        match readi file (wrap (offset + i)) n with
        | none => pure (-1)
        | some bytes => do
          perform (.load pgdir (wrap (addr + i)) (PTE_ADDR w) bytes)
          if bytes.length ≠ n then pure (-1) else loaduvm_from pgdir addr file offset sz turns (i + PGSIZE)
    else pure 0

/-- Load a program segment into pgdir. addr must be page-aligned and the pages from addr to addr+sz
    must already be mapped. -/
def loaduvm (pgdir addr : Nat) (file : List UInt8) (offset sz : Nat) : VmProg Int :=
  if addr % PGSIZE ≠ 0 then panic "loaduvm: addr must be page aligned"
  else loaduvm_from pgdir addr file offset sz (sz / PGSIZE + 1) 0

def ELF_MAGIC : Nat := 0x464C457F
def ELF_PROG_LOAD : Nat := 1
/-- `sizeof(struct elfhdr)` and `sizeof(struct proghdr)` -/
def SIZEOF_ELFHDR : Nat := 52
def SIZEOF_PROGHDR : Nat := 32

/-- A number of `size` bytes in a structure. -/
def field (bytes : List UInt8) (off size : Nat) : Nat := leNat ((bytes.drop off).take size)

structure Elfhdr where
  magic : Nat
  entry : Nat
  phoff : Nat
  phnum : Nat

def Elfhdr.ofBytes (b : List UInt8) : Elfhdr := ⟨field b 0 4,field b 24 4,field b 28 4,field b 44 2⟩

structure Proghdr where
  type : Nat
  off : Nat
  vaddr : Nat
  filesz : Nat
  memsz : Nat

def Proghdr.ofBytes (b : List UInt8) : Proghdr := ⟨field b 0 4,field b 4 4,field b 8 4,field b 16 4,field b 20 4⟩

/-- The loop of `exec` over the program headers: the size, or `none` where it goes to `bad`. -/
def exec_load (pgdir : Nat) (file : List UInt8) : Nat → Nat → Nat → VmProg (Option Nat)
  | 0, _, sz => pure (some sz)
  | left + 1, off, sz => do
    match readi file off SIZEOF_PROGHDR with
    | none => pure none
    | some bytes =>
      if bytes.length ≠ SIZEOF_PROGHDR then pure none
      else do
        let ph := Proghdr.ofBytes bytes
        if ph.type ≠ ELF_PROG_LOAD then exec_load pgdir file left (wrap (off + SIZEOF_PROGHDR)) sz
        else if ph.memsz < ph.filesz then pure none
        else do
          let sz ← allocuvm pgdir sz (wrap (ph.vaddr + ph.memsz))
          if sz = 0 then pure none
          else do
            let r ← loaduvm pgdir ph.vaddr file ph.off ph.filesz
            if r < 0 then pure none else exec_load pgdir file left (wrap (off + SIZEOF_PROGHDR)) sz

/-- The loop of `exec` that pushes the argument strings: the stack pointer and the addresses of the
    strings, or `none` where it goes to `bad`. -/
def exec_args (cur pgdir : Nat) : List (List UInt8) → Nat → List Nat → VmProg (Option (Nat × List Nat))
  | [], sp, ustack => pure (some (sp,ustack))
  | arg :: rest, sp, ustack => do
    if ustack.length ≥ MAXARG then pure none
    else do
      let sp := wrap (sp + (2 ^ 32 - (arg.length + 1))) / 4 * 4
      let r ← copyout cur pgdir sp (arg ++ [0])
      if r < 0 then pure none else exec_args cur pgdir rest sp (ustack ++ [sp])

/-- The 16 bytes that `exec` copies from `EXIT_BEGIN`: the code of `exit.S`, and what follows it. -/
def EXIT_BEGIN : List UInt8 := [0x50,0x50,0xB8,2,0,0,0,0xCD,0x40,0xC3,0,0,0,0,0,0]

/-- What `exec` commits to the process. -/
structure Image where
  pgdir : Nat
  sz : Nat
  entry : Nat
  sp : Nat

/-- `exec` after the argument strings: the code of `exit` and the rest of the user stack. -/
def exec_push (cur pgdir sz entry sp : Nat) (strings : List Nat) : VmProg (Option Image) := do
  let sp := wrap (sp + (2 ^ 32 - 16))
  -- what this `copyout` returns is not looked at
  let _ ← copyout cur pgdir sp EXIT_BEGIN
  let argc := strings.length
  let ustack := [sp,argc,wrap (sp + (2 ^ 32 - (argc + 1) * 4))] ++ strings ++ [0]
  let sp := wrap (sp + (2 ^ 32 - (3 + argc + 1) * 4))
  let r ← copyout cur pgdir sp (ustack.flatMap (leBytes 4))
  if r < 0 then pure none else pure (some ⟨pgdir,sz,entry,sp⟩)

/-- `exec` from the stack on; `none` where it goes to `bad`. -/
def exec_stack (cur pgdir sz entry : Nat) (argv : List (List UInt8)) : VmProg (Option Image) := do
  -- Allocate two pages at the next page boundary.
  -- Make the first inaccessible. Use the second as the user stack.
  let sz ← allocuvm pgdir (PGROUNDUP sz) (wrap (PGROUNDUP sz + 2 * PGSIZE))
  if sz = 0 then pure none
  else do
    clearpteu pgdir (wrap (sz + (2 ^ 32 - 2 * PGSIZE)))
    let pushed ← exec_args cur pgdir argv sz []
    match pushed with
    | none => pure none
    | some (sp,strings) => exec_push cur pgdir sz entry sp strings

/-- `exec` up to the commit, for a process that runs with the page directory `cur`: the new image, or
    `none` for -1. -/
@[irreducible] def exec (cur : Nat) (file : List UInt8) (argv : List (List UInt8)) : VmProg (Option Image) := do
  -- Check ELF header
  match readi file 0 SIZEOF_ELFHDR with
  | none => pure none
  | some bytes =>
    if bytes.length < SIZEOF_ELFHDR then pure none
    else do
      let elf := Elfhdr.ofBytes bytes
      if elf.magic ≠ ELF_MAGIC then pure none
      else do
        let pgdir ← setupkvm
        match pgdir with
        | none => pure none
        | some pgdir => do
          -- Load program into memory.
          let loaded ← exec_load pgdir file elf.phnum elf.phoff 0
          match loaded with
          | none => do
            freevm pgdir
            pure none
          | some sz => do
            let image ← exec_stack cur pgdir sz elf.entry argv
            match image with
            | none => do
              freevm pgdir
              pure none
            | some image => pure (some image)

end Osce.Vm
