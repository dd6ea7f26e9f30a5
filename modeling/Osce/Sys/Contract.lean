import Osce.Lib.Holders
import Osce.Sys.State

/-!
What a system call has to itself while it runs, and what each operation asks for and
leaves. A call holds references to files and inodes, ends and pages of pipes, and the
entry of a child.
-/
namespace Osce.Sys
open Osce.Lib Osce.Layout Prog

structure Child where
  proc : Proc
  ofile : Fd → Option File
  cwd : Option Entry

structure Hold where
  ofile : Fd → Option File
  cwd : Option Entry
  /-- The references, those of the descriptors and of the current directory included. -/
  files : Multiset File
  inodes : Multiset Entry
  /-- Files that have been allocated and have no type yet. -/
  fresh : Finset File
  ends : Multiset (Nat × Bool)
  pages : Multiset Nat
  child : Option Child

def refuted : List String := ["filedup","fileclose"]

namespace Hold

def addInode (h : Hold) (e : Entry) : Hold := { h with inodes := e ::ₘ h.inodes }
def dropInode (h : Hold) (e : Entry) : Hold := { h with inodes := h.inodes.erase e }
def allocFile (h : Hold) (f : File) : Hold := { h with files := f ::ₘ h.files, fresh := insert f h.fresh }
def dropFile (h : Hold) (f : File) : Hold := { h with files := h.files.erase f, fresh := h.fresh.erase f }

def Pre : SysOp → Hold → Prop
  | .idup e, h | .putBegin e, h | .putEnd e, h => e ∈ h.inodes
  | .filedup f, h | .closeFile f, h => f ∈ h.files
  | .setFile f kind, h => f ∈ h.fresh ∧ match kind with
    | .FD_NONE => True
    | .FD_PIPE pipe writable => (pipe,writable) ∈ h.ends
    | .FD_INODE e => e ∈ h.inodes
  | .kfree pipe, h | .openPipe pipe, h => pipe ∈ h.pages
  | .closePipe pipe writable, h => (pipe,writable) ∈ h.ends
  | .allocproc, h => h.child = none
  | .unalloc np, h => h.child = some ⟨np,fun _ => none,none⟩
  | .setParent np, h => ∃ c, h.child = some c ∧ c.proc = np
  | .giveFile np fd f, h => f ∈ h.files ∧ ∃ c, h.child = some c ∧ c.proc = np ∧ c.ofile fd = none
  | .giveCwd np e, h => e ∈ h.inodes ∧ ∃ c, h.child = some c ∧ c.proc = np ∧ c.cwd = none
  | .runnable np, h => ∃ c, h.child = some c ∧ c.proc = np ∧ c.cwd ≠ none
  | .panic message, _ => message ∉ refuted
  | _, _ => True

def Post : (op : SysOp) → Hold → op.Ans → Hold → Prop
  | .iget _, h, e, h' => h' = h.addInode e
  | .idup e, h, _, h' => h' = h.addInode e
  | .putBegin e, h, free, h' => h' = if free then h else h.dropInode e
  | .putEnd e, h, _, h' => h' = h.dropInode e
  | .filealloc, h, f, h' => match f with
    | some f => h' = h.allocFile f ∧ f ∉ h.files ∧ f ∉ h.fresh
    | none => h' = h
  | .filedup f, h, _, h' => h' = { h with files := f ::ₘ h.files }
  | .closeFile f, h, last, h' => h' = match last with
    | some (.FD_PIPE pipe writable) => { h.dropFile f with ends := (pipe,writable) ::ₘ h.ends }
    | some (.FD_INODE e) => (h.dropFile f).addInode e
    | some .FD_NONE | none => h.dropFile f
  | .setFile f kind, h, _, h' => h' = match kind with
    | .FD_NONE => { h with fresh := h.fresh.erase f }
    | .FD_PIPE pipe writable => { h with fresh := h.fresh.erase f, ends := h.ends.erase (pipe,writable) }
    | .FD_INODE e => { h.dropInode e with fresh := h.fresh.erase f }
  | .kalloc, h, pipe, h' => h' = match pipe with
    | some pipe => { h with pages := pipe ::ₘ h.pages }
    | none => h
  | .kfree pipe, h, _, h' => h' = { h with pages := h.pages.erase pipe }
  | .openPipe pipe, h, _, h' => h' = { h with pages := h.pages.erase pipe, ends := (pipe,true) ::ₘ (pipe,false) ::ₘ h.ends }
  | .closePipe pipe writable, h, closed, h' =>
    h' = { h with ends := h.ends.erase (pipe,writable), pages := if closed then pipe ::ₘ h.pages else h.pages }
  | .ofile fd, h, f, h' => h' = h ∧ f = h.ofile fd
  | .setOfile fd f, h, _, h' => h' = { h with ofile := Function.update h.ofile fd f }
  | .cwd, h, ip, h' => h' = h ∧ ip = h.cwd
  | .setCwd ip, h, _, h' => h' = { h with cwd := ip }
  | .allocproc, h, found, h' => h' = match found with
    | some (np,_) => { h with child := some ⟨np,fun _ => none,none⟩ }
    | none => h
  | .unalloc _, h, _, h' => h' = { h with child := none }
  | .giveFile _ fd f, h, _, h' =>
    h' = { h.dropFile f with child := h.child.map fun c => { c with ofile := Function.update c.ofile fd (some f) } }
  | .giveCwd _ e, h, _, h' => h' = { h.dropInode e with child := h.child.map fun c => { c with cwd := some e } }
  | .runnable _, h, _, h' => h' = { h with child := none }
  | _, h, _, h' => h' = h

end Hold

def contract : Contract SysSig Hold := ⟨Hold.Pre,Hold.Post⟩

end Osce.Sys
