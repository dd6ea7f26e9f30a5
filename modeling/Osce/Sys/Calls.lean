import Osce.Sys.Contract

/-!
Every system call meets the contract of its operations: it begins and ends with the
references of its descriptors and its current directory.
-/
namespace Osce.Sys
open Osce.Lib Osce.Layout Prog Function Multiset Hold
open Osce.Fs (namecmp)

section
variable {α : Type} {Q : α → Hold → Prop} {h : Hold}

theorem meets_op {op : SysOp} {next : op.Ans → SysProg α} (pre : Hold.Pre op h)
    (rest : ∀ a h', Hold.Post op h a h' → Meets contract (next a) Q h') : Meets contract (perform op >>= next) Q h := ⟨pre,rest⟩

theorem meets_last {op : SysOp} {Q : op.Ans → Hold → Prop} (pre : Hold.Pre op h) (rest : ∀ a h', Hold.Post op h a h' → Q a h') :
    Meets contract (perform op) Q h := ⟨pre,rest⟩

theorem meets_look {op : SysOp} {next : op.Ans → SysProg α} (pre : Hold.Pre op h) (keeps : ∀ a h', Hold.Post op h a h' → h' = h)
    (rest : ∀ a, Hold.Post op h a h → Meets contract (next a) Q h) : Meets contract (perform op >>= next) Q h := by
  refine meets_op pre fun a h' post => ?_
  have same := keeps a h' post
  subst same
  exact rest a post

theorem meets_free {op : SysOp} {next : op.Ans → SysProg α} (pre : Hold.Pre op h) (free : ∀ a h', Hold.Post op h a h' = (h' = h))
    (rest : ∀ a, Meets contract (next a) Q h) : Meets contract (perform op >>= next) Q h :=
  meets_look pre (fun a h' post => (free a h').mp post) fun a _ => rest a

theorem meets_panic {message : String} (harmless : message ∉ refuted) : Meets contract (panic message) Q h := ⟨harmless,nofun⟩

end

section
variable {h : Hold} {e : Entry}

@[simp] theorem dropInode_addInode : (h.addInode e).dropInode e = h := by simp [addInode,dropInode]

theorem addInode_comm (e' : Entry) : (h.addInode e).addInode e' = (h.addInode e').addInode e := by
  simp [addInode,cons_swap]

variable {Q : Unit → Hold → Prop}

theorem ilock_meets (rest : Q () h) : Meets contract (ilock e) Q h :=
  meets_free trivial (fun _ _ => rfl) fun _ => meets_free trivial (fun _ _ => rfl) fun _ => rest

theorem iunlock_meets (rest : Q () h) : Meets contract (iunlock e) Q h := by
  refine meets_last trivial ?_
  rintro _ _ rfl
  exact rest

theorem iput_meets (rest : Q () h) : Meets contract (iput e) Q (h.addInode e) := by
  refine meets_op (mem_cons_self ..) ?_
  rintro free _ rfl
  cases free with
  | false =>
    rw [if_neg Bool.false_ne_true,dropInode_addInode]
    exact rest
  | true =>
    refine meets_free trivial (fun _ _ => rfl) fun _ => meets_last (mem_cons_self ..) ?_
    rintro _ _ rfl
    rw [if_pos rfl,dropInode_addInode]
    exact rest

theorem iunlockput_meets (rest : Q () h) : Meets contract (iunlockput e) Q (h.addInode e) :=
  meets_bind (iunlock_meets (iput_meets rest))

end

section
variable {h : Hold} {dp : Entry} {name : Name}

theorem dirlookup_meets {Q : Option (Entry × Nat) → Hold → Prop} (absent : Q none h)
    (found : ∀ e slot, Q (some (e,slot)) (h.addInode e)) : Meets contract (dirlookup dp name) Q h := by
  refine meets_free trivial (fun _ _ => rfl) fun d => ?_
  split
  · exact meets_panic (by decide)
  · refine meets_free trivial (fun _ _ => rfl) fun des => ?_
    cases lookup name des with
    | none => exact absent
    | some r =>
      refine meets_op trivial ?_
      rintro e _ rfl
      exact found e r.2

theorem dirlink_meets {Q : Bool → Hold → Prop} {inum : Nat} (rest : ∀ linked, Q linked h) :
    Meets contract (dirlink dp name inum) Q h := by
  refine meets_bind (dirlookup_meets ?_ fun e slot => ?_)
  · refine meets_free trivial (fun _ _ => rfl) fun des => ?_
    refine meets_free trivial (fun _ _ => rfl) fun written => ?_
    cases written with
    | false => exact meets_panic (by decide)
    | true => exact rest true
  · exact meets_bind (iput_meets (rest false))

variable {Q : Option (Entry × Name) → Hold → Prop} {path : List UInt8} {cwd : Entry}

theorem namex_from_meets (nameiparent : Bool) (elems : List Name) (name : Name) (ip : Entry) (absent : Q none h)
    (found : ∀ e n, Q (some (e,n)) (h.addInode e)) : Meets contract (namex_from nameiparent elems name ip) Q (h.addInode ip) := by
  induction elems generalizing name ip with
  | nil =>
    unfold namex_from
    split
    · exact meets_bind (iput_meets absent)
    · exact found ip name
  | cons first elems ih =>
    refine meets_bind (ilock_meets ?_)
    refine meets_free trivial (fun _ _ => rfl) fun d => ?_
    split
    · exact meets_bind (iunlockput_meets absent)
    · split
      · exact meets_bind (iunlock_meets (found ip first))
      · refine meets_bind (dirlookup_meets (meets_bind (iunlockput_meets absent)) fun next slot => ?_)
        rw [addInode_comm]
        exact meets_bind (iunlockput_meets (ih first next))

structure Stands (h : Hold) (cwd : Entry) : Prop where
  isCwd : h.cwd = some cwd
  held : cwd ∈ h.inodes

theorem namex_meets {nameiparent : Bool} (stands : Stands h cwd) (absent : Q none h) (found : ∀ e n, Q (some (e,n)) (h.addInode e)) :
    Meets contract (namex path nameiparent) Q h := by
  unfold namex
  split
  · refine meets_op trivial ?_
    rintro ip _ rfl
    exact namex_from_meets nameiparent (elems path) [] ip absent found
  · refine meets_look trivial (fun _ _ post => post.1) fun ip isCwd => ?_
    rw [isCwd.2,stands.isCwd]
    refine meets_op stands.held ?_
    rintro _ _ rfl
    exact namex_from_meets nameiparent (elems path) [] cwd absent found

theorem namei_meets {Q : Option Entry → Hold → Prop} (stands : Stands h cwd) (absent : Q none h)
    (found : ∀ e, Q (some e) (h.addInode e)) : Meets contract (namei path) Q h :=
  meets_bind (namex_meets stands absent fun e _ => found e)

theorem nameiparent_meets (stands : Stands h cwd) (absent : Q none h) (found : ∀ e n, Q (some (e,n)) (h.addInode e)) :
    Meets contract (nameiparent path) Q h :=
  namex_meets stands absent found

end

structure Rest (h : Hold) : Prop where
  files : h.files = slots h.ofile
  cwd : ∃ e, h.cwd = some e ∧ h.inodes = {e}
  fresh : h.fresh = ∅
  ends : h.ends = 0
  pages : h.pages = 0
  child : h.child = none

theorem Rest.stands {h : Hold} (rest : Rest h) : ∃ cwd, Stands h cwd := by
  obtain ⟨e,isCwd,only⟩ := rest.cwd
  exact ⟨e,isCwd,by rw [only]; exact mem_singleton_self e⟩

theorem Stands.addInode {h : Hold} {cwd : Entry} (stands : Stands h cwd) (e : Entry) : Stands (h.addInode e) cwd :=
  ⟨stands.isCwd,mem_cons_of_mem stands.held⟩

def Settled {α : Type} (_ : α) (h : Hold) : Prop := Rest h

section
variable {h : Hold} {dp ip : Entry}

theorem end_op_meets {a : Int} (rest : Rest h) : Meets contract (do perform .end_op; pure a) Settled h :=
  meets_free trivial (fun _ _ => rfl) fun _ => rest

theorem giveBack_meets {a : Int} (rest : Rest h) : Meets contract (do iunlockput ip; perform .end_op; pure a) Settled (h.addInode ip) :=
  meets_bind (iunlockput_meets (end_op_meets rest))

theorem sys_link_bad_meets (rest : Rest h) : Meets contract (sys_link_bad ip) Settled (h.addInode ip) :=
  meets_bind (ilock_meets (meets_free trivial (fun _ _ => rfl) fun _ => giveBack_meets rest))

theorem sys_link_meets {args : Option (List UInt8 × List UInt8)} (rest : Rest h) : Meets contract (sys_link args) Settled h := by
  unfold sys_link
  cases args with
  | none => exact rest
  | some args =>
    obtain ⟨cwd,stands⟩ := rest.stands
    refine meets_free trivial (fun _ _ => rfl) fun _ => ?_
    refine meets_bind (namei_meets stands (end_op_meets rest) fun ip => ?_)
    refine meets_bind (ilock_meets (meets_free trivial (fun _ _ => rfl) fun d => ?_))
    split
    · exact giveBack_meets rest
    · refine meets_free trivial (fun _ _ => rfl) fun _ => meets_bind (iunlock_meets ?_)
      refine meets_bind (nameiparent_meets (stands.addInode ip) (sys_link_bad_meets rest) fun dp n => ?_)
      refine meets_bind (ilock_meets (meets_free trivial (fun _ _ => rfl) fun inum => ?_))
      refine meets_bind (dirlink_meets fun linked => meets_bind (iunlockput_meets ?_))
      cases linked with
      | true => exact meets_bind (iput_meets (end_op_meets rest))
      | false => exact sys_link_bad_meets rest

theorem sys_unlink_last_meets (rest : Rest h) : Meets contract (sys_unlink_last dp ip) Settled ((h.addInode dp).addInode ip) := by
  rw [addInode_comm]
  exact meets_bind (iunlockput_meets (meets_free trivial (fun _ _ => rfl) fun _ => giveBack_meets rest))

theorem sys_unlink_entry_meets {slot : Nat} (rest : Rest h) :
    Meets contract (sys_unlink_entry dp ip slot) Settled ((h.addInode dp).addInode ip) := by
  refine meets_bind (ilock_meets (meets_free trivial (fun _ _ => rfl) fun d => ?_))
  split
  · exact meets_panic (by decide)
  · split
    · refine meets_free trivial (fun _ _ => rfl) fun des => ?_
      split
      · refine meets_free trivial (fun _ _ => rfl) fun written => ?_
        cases written with
        | false => exact meets_panic (by decide)
        | true => exact meets_free trivial (fun _ _ => rfl) fun _ => sys_unlink_last_meets rest
      · exact meets_bind (iunlockput_meets (giveBack_meets rest))
    · refine meets_free trivial (fun _ _ => rfl) fun written => ?_
      cases written with
      | false => exact meets_panic (by decide)
      | true => exact sys_unlink_last_meets rest

theorem sys_unlink_meets {path : Option (List UInt8)} (rest : Rest h) : Meets contract (sys_unlink path) Settled h := by
  unfold sys_unlink
  cases path with
  | none => exact rest
  | some path =>
    obtain ⟨cwd,stands⟩ := rest.stands
    refine meets_free trivial (fun _ _ => rfl) fun _ => ?_
    refine meets_bind (nameiparent_meets stands (end_op_meets rest) fun dp name => meets_bind (ilock_meets ?_))
    split
    · exact giveBack_meets rest
    · exact meets_bind (dirlookup_meets (giveBack_meets rest) fun ip slot => sys_unlink_entry_meets rest)

theorem ialloc_meets {Q : Entry → Hold → Prop} {type : BitVec 16} (rest : ∀ e, Q e (h.addInode e)) :
    Meets contract (ialloc type) Q h := by
  unfold ialloc
  generalize List.range' 1 (ninodes - 1) = inums
  induction inums with
  | nil => exact meets_panic (by decide)
  | cons i more ih =>
    refine meets_free trivial (fun _ _ => rfl) fun free => ?_
    cases free with
    | false => exact ih
    | true =>
      refine meets_last trivial ?_
      rintro e _ rfl
      exact rest e

variable {Q : Option Entry → Hold → Prop}

theorem create_link_meets {name : Name} (made : Q (some ip) h) : Meets contract (create_link dp ip name) Q (h.addInode dp) := by
  refine meets_free trivial (fun _ _ => rfl) fun inum => meets_bind (dirlink_meets fun linked => ?_)
  cases linked with
  | true => exact meets_bind (iunlockput_meets made)
  | false => exact meets_panic (by decide)

theorem create_dots_meets {Q : Unit → Hold → Prop} (rest : Q () h) : Meets contract (create_dots ip dp) Q h := by
  refine meets_free trivial (fun _ _ => rfl) fun own => meets_bind (dirlink_meets fun linked => ?_)
  cases linked with
  | false => exact meets_panic (by decide)
  | true =>
    refine meets_free trivial (fun _ _ => rfl) fun parent => meets_bind (dirlink_meets fun linked => ?_)
    cases linked with
    | false => exact meets_panic (by decide)
    | true => exact rest

theorem create_meets {cwd : Entry} {path : List UInt8} {type major minor : BitVec 16} (stands : Stands h cwd) (absent : Q none h)
    (made : ∀ ip, Q (some ip) (h.addInode ip)) : Meets contract (create path type major minor) Q h := by
  refine meets_bind (nameiparent_meets stands absent fun dp name => ?_)
  refine meets_bind (ilock_meets (meets_bind (dirlookup_meets ?_ fun ip slot => ?_)))
  · refine meets_bind (ialloc_meets fun ip => meets_bind (ilock_meets ?_))
    refine meets_free trivial (fun _ _ => rfl) fun _ => ?_
    rw [addInode_comm]
    split
    · exact meets_free trivial (fun _ _ => rfl) fun _ => meets_bind (create_dots_meets (create_link_meets (made ip)))
    · exact create_link_meets (made ip)
  · rw [addInode_comm]
    refine meets_bind (iunlockput_meets (meets_bind (ilock_meets (meets_free trivial (fun _ _ => rfl) fun d => ?_))))
    split
    · exact made ip
    · exact meets_bind (iunlockput_meets absent)

end

section
variable {h : Hold} {f : File}

theorem fdalloc_meets {Q : Option Fd → Hold → Prop} (full : Q none h)
    (found : ∀ fd, h.ofile fd = none → Q (some fd) { h with ofile := update h.ofile fd (some f) }) :
    Meets contract (fdalloc f) Q h := by
  unfold fdalloc
  induction List.finRange NOFILE with
  | nil => exact full
  | cons fd rest ih =>
    refine meets_look trivial (fun _ _ post => post.1) fun used isUsed => ?_
    split
    · rename_i free
      refine meets_op trivial ?_
      rintro _ _ rfl
      exact found fd (isUsed.2.symm.trans free)
    · exact ih

theorem pipeclose_meets {Q : Unit → Hold → Prop} {pipe : Nat} {writable : Bool} (rest : Q () h) :
    Meets contract (pipeclose pipe writable) Q { h with ends := (pipe,writable) ::ₘ h.ends } := by
  refine meets_op (mem_cons_self ..) ?_
  rintro closed _ rfl
  simp only [erase_cons_head]
  cases closed with
  | false => exact rest
  | true =>
    refine meets_last (mem_cons_self ..) ?_
    rintro _ _ rfl
    simpa using rest

theorem fileclose_meets {Q : Unit → Hold → Prop} (held : f ∈ h.files) (rest : Q () (h.dropFile f)) :
    Meets contract (fileclose f) Q h := by
  refine meets_op held ?_
  rintro last _ rfl
  rcases last with _ | _ | ⟨pipe,writable⟩ | ip
  · exact rest
  · exact rest
  · exact pipeclose_meets (h := h.dropFile f) rest
  · refine meets_free trivial (fun _ _ => rfl) fun _ => meets_bind (iput_meets (meets_last trivial ?_))
    rintro _ _ rfl
    exact rest

theorem dropFile_allocFile (new : f ∉ h.fresh) : (h.allocFile f).dropFile f = h := by
  simp [allocFile,dropFile,Finset.erase_insert new]

theorem dropFile_allocFile_allocFile {f' : File} (new : f ∉ h.fresh) (other : f' ≠ f) :
    ((h.allocFile f).allocFile f').dropFile f = h.allocFile f' := by
  simp only [allocFile,dropFile,mk.injEq,true_and,and_true]
  refine ⟨?_,?_⟩
  · rw [erase_cons_tail _ (by simpa using other),erase_cons_head]
  · rw [Finset.erase_insert_of_ne other,Finset.erase_insert new]

theorem pipealloc_meets {Q : Option (File × File) → Hold → Prop} (empty : h.fresh = ∅) (bad : Q none h)
    (made : ∀ f0 f1, Q (some (f0,f1)) { h with files := f1 ::ₘ f0 ::ₘ h.files }) : Meets contract pipealloc Q h := by
  have nothing (f : File) : f ∉ h.fresh := by
    rw [empty]
    exact Finset.notMem_empty f
  refine meets_op trivial fun f0 _ held => ?_
  cases f0 with
  | none =>
    cases held
    exact bad
  | some f0 =>
    obtain ⟨rfl,-,new⟩ := held
    refine meets_op trivial fun f1 _ held => ?_
    cases f1 with
    | none =>
      cases held
      refine meets_bind (fileclose_meets (mem_cons_self ..) ?_)
      rw [dropFile_allocFile new]
      exact bad
    | some f1 =>
      obtain ⟨rfl,absent,-⟩ := held
      have other : f1 ≠ f0 := fun same => absent (by rw [same]; exact mem_cons_self ..)
      refine meets_op trivial fun p _ held => ?_
      cases p with
      | none =>
        cases held
        refine meets_bind (fileclose_meets (mem_cons_of_mem (mem_cons_self ..)) ?_)
        rw [dropFile_allocFile_allocFile new other]
        refine meets_bind (fileclose_meets (mem_cons_self ..) ?_)
        rw [dropFile_allocFile (nothing f1)]
        exact bad
      | some p =>
        cases held
        refine meets_op (mem_cons_self ..) ?_
        rintro _ _ rfl
        refine meets_op ⟨by simp [allocFile],by simp⟩ ?_
        rintro _ _ rfl
        refine meets_op ⟨by simp [allocFile,other],by simp⟩ ?_
        rintro _ _ rfl
        have fresh : ((insert f1 (insert f0 h.fresh)).erase f0).erase f1 = h.fresh := by
          rw [Finset.erase_insert_of_ne other,Finset.erase_insert new,Finset.erase_insert (nothing f1)]
        have ends : (((p,true) ::ₘ (p,false) ::ₘ h.ends).erase (p,false)).erase (p,true) = h.ends := by
          rw [erase_cons_tail _ (by simp),erase_cons_head,erase_cons_head]
        simp only [allocFile,fresh,ends,erase_cons_head]
        exact made f0 f1

end

section
variable {h : Hold}

theorem argfd_meets {Q : Option (Fd × File) → Hold → Prop} {fd : Option Int} (bad : Q none h)
    (found : ∀ fd f, h.ofile fd = some f → Q (some (fd,f)) h) : Meets contract (argfd fd) Q h := by
  unfold argfd
  split
  · exact bad
  · rename_i fd _
    refine meets_look trivial (fun _ _ post => post.1) fun f isF => ?_
    rw [isF.2]
    cases here : h.ofile fd with
    | none => exact bad
    | some f => exact found fd f here

theorem Rest.mem_files (rest : Rest h) {fd : Fd} {f : File} (here : h.ofile fd = some f) : f ∈ h.files := by
  rw [rest.files]
  exact mem_slots.mpr ⟨fd,here⟩

theorem slots_fill {ofile : Fd → Option File} {fd : Fd} {f : File} (free : ofile fd = none) :
    slots (update ofile fd (some f)) = f ::ₘ slots ofile := by
  have change := slots_update ofile fd (some f)
  rw [free] at change
  simpa [add_comm] using change

theorem slots_clear {ofile : Fd → Option File} {fd : Fd} {f : File} (here : ofile fd = some f) :
    slots (update ofile fd none) = (slots ofile).erase f := by
  have change := slots_update ofile fd none
  rw [here] at change
  simp only [Option.elim_some,Option.elim_none,add_zero] at change
  rw [← change,add_comm,singleton_add,erase_cons_head]

theorem sys_dup_meets {fd : Option Int} (rest : Rest h) : Meets contract (sys_dup fd) Settled h := by
  refine meets_bind (argfd_meets rest fun fd f here => ?_)
  refine meets_bind (fdalloc_meets rest fun fd' free => meets_op (rest.mem_files here) ?_)
  rintro _ _ rfl
  refine ⟨?_,rest.cwd,rest.fresh,rest.ends,rest.pages,rest.child⟩
  rw [slots_fill free,rest.files]

theorem Rest.close (rest : Rest h) {fd : Fd} {f : File} (here : h.ofile fd = some f) :
    Rest { h.dropFile f with ofile := update h.ofile fd none } := by
  refine ⟨?_,rest.cwd,by simp [dropFile,rest.fresh],rest.ends,rest.pages,rest.child⟩
  simp only [dropFile,slots_clear here,rest.files]

theorem sys_close_meets {fd : Option Int} (rest : Rest h) : Meets contract (sys_close fd) Settled h := by
  refine meets_bind (argfd_meets rest fun fd f here => meets_op trivial ?_)
  rintro _ _ rfl
  exact meets_bind (fileclose_meets (rest.mem_files here) (rest.close here))

theorem open_inode_meets {Q : Option Entry → Hold → Prop} {cwd : Entry} {path : List UInt8} {omode : BitVec 32} (stands : Stands h cwd)
    (absent : Q none h) (found : ∀ ip, Q (some ip) (h.addInode ip)) : Meets contract (open_inode path omode) Q h := by
  unfold open_inode
  split
  · exact create_meets stands absent found
  · refine meets_bind (namei_meets stands absent fun ip => meets_bind (ilock_meets ?_))
    refine meets_free trivial (fun _ _ => rfl) fun d => ?_
    split
    · exact meets_bind (iunlockput_meets absent)
    · exact found ip

theorem sys_open_meets {args : Option (List UInt8 × BitVec 32)} (rest : Rest h) : Meets contract (sys_open args) Settled h := by
  unfold sys_open
  cases args with
  | none => exact rest
  | some args =>
    obtain ⟨cwd,stands⟩ := rest.stands
    refine meets_free trivial (fun _ _ => rfl) fun _ => meets_bind (open_inode_meets stands (end_op_meets rest) fun ip => ?_)
    refine meets_op trivial fun f _ held => ?_
    cases f with
    | none =>
      cases held
      exact giveBack_meets rest
    | some f =>
      obtain ⟨rfl,-,new⟩ := held
      refine meets_bind (fdalloc_meets ?_ fun fd free => meets_bind (iunlock_meets ?_))
      · refine meets_bind (fileclose_meets (mem_cons_self ..) ?_)
        rw [dropFile_allocFile new]
        exact giveBack_meets rest
      · refine meets_free trivial (fun _ _ => rfl) fun _ => meets_op ⟨Finset.mem_insert_self ..,mem_cons_self ..⟩ ?_
        rintro _ _ rfl
        refine ⟨?_,?_,?_,rest.ends,rest.pages,rest.child⟩
        · show f ::ₘ h.files = slots (update h.ofile fd (some f))
          rw [slots_fill (show h.ofile fd = none from free),rest.files]
        · simpa [allocFile,addInode,dropInode] using rest.cwd
        · simp [allocFile,addInode,rest.fresh]

theorem make_meets {args : Option (List UInt8 × BitVec 16 × BitVec 16)} {type : BitVec 16} (rest : Rest h) :
    Meets contract (make args type) Settled h := by
  refine meets_free trivial (fun _ _ => rfl) fun _ => ?_
  obtain ⟨cwd,stands⟩ := rest.stands
  cases args with
  | none => exact end_op_meets rest
  | some args => exact meets_bind (create_meets stands (end_op_meets rest) fun ip => giveBack_meets rest)

theorem sys_chdir_meets {path : Option (List UInt8)} (rest : Rest h) : Meets contract (sys_chdir path) Settled h := by
  refine meets_free trivial (fun _ _ => rfl) fun _ => ?_
  cases path with
  | none => exact end_op_meets rest
  | some path =>
    obtain ⟨cwd,stands⟩ := rest.stands
    refine meets_bind (namei_meets stands (end_op_meets rest) fun ip => meets_bind (ilock_meets ?_))
    refine meets_free trivial (fun _ _ => rfl) fun d => ?_
    split
    · exact giveBack_meets rest
    · refine meets_bind (iunlock_meets (meets_look trivial (fun _ _ post => post.1) fun old isOld => ?_))
      rw [isOld.2,show (h.addInode ip).cwd = some cwd from stands.isCwd]
      -- the call holds the old directory and the new one
      have only : h.inodes = {cwd} := by
        obtain ⟨e,isCwd,only⟩ := rest.cwd
        rw [only,Option.some.inj (isCwd.symm.trans stands.isCwd)]
      have both : h.addInode ip = addInode { h with inodes := {ip} } cwd := by
        simp only [addInode,only]
        exact congrArg (fun inodes => { h with inodes := inodes }) (cons_swap ip cwd 0)
      rw [both]
      refine meets_bind (iput_meets (meets_free trivial (fun _ _ => rfl) fun _ => meets_op trivial ?_))
      rintro _ _ rfl
      exact ⟨rest.files,⟨ip,rfl,rfl⟩,rest.fresh,rest.ends,rest.pages,rest.child⟩

theorem sys_exec_meets {path : Option (List UInt8)} (rest : Rest h) : Meets contract (sys_exec path) Settled h := by
  unfold sys_exec
  cases path with
  | none => exact rest
  | some path =>
    obtain ⟨cwd,stands⟩ := rest.stands
    refine meets_free trivial (fun _ _ => rfl) fun _ => ?_
    refine meets_bind (namei_meets stands (end_op_meets rest) fun ip => meets_bind (ilock_meets ?_))
    refine meets_free trivial (fun _ _ => rfl) fun loaded => ?_
    refine meets_bind (iunlockput_meets (meets_free trivial (fun _ _ => rfl) fun _ => ?_))
    cases loaded with
    | false => exact rest
    | true =>
      refine meets_free trivial (fun _ _ => rfl) fun built => ?_
      cases built <;> exact rest

theorem sys_pipe_meets {args : Option Unit} (rest : Rest h) : Meets contract (sys_pipe args) Settled h := by
  unfold sys_pipe
  cases args with
  | none => exact rest
  | some _ =>
    refine meets_bind (pipealloc_meets rest.fresh rest fun rf wf => ?_)
    -- the two ends are closed again
    have bad {ofile : Fd → Option File} (same : slots ofile = slots h.ofile) :
        Meets contract (do fileclose rf; fileclose wf; pure (-1 : Int)) Settled { h with files := wf ::ₘ rf ::ₘ h.files, ofile := ofile } := by
      refine meets_bind (fileclose_meets (by simp) (meets_bind (fileclose_meets ?_ ?_)))
      · simp [dropFile,cons_swap wf rf]
      · refine ⟨?_,rest.cwd,by simp [dropFile,rest.fresh],rest.ends,rest.pages,rest.child⟩
        simp [dropFile,cons_swap wf rf,rest.files,same]
    refine meets_bind (fdalloc_meets (bad rfl) fun fd0 free0 => ?_)
    refine meets_bind (fdalloc_meets (meets_op trivial ?_) fun fd1 free1 => ⟨?_,rest.cwd,rest.fresh,rest.ends,rest.pages,rest.child⟩)
    · rintro _ _ rfl
      refine bad ?_
      rw [update_idem,← free0,update_eq_self]
    · simp only [slots_fill free1,slots_fill free0,rest.files]

theorem allocproc_meets {Q : Option (Proc × Nat) → Hold → Prop} (empty : h.child = none) (bad : Q none h)
    (made : ∀ np pid, Q (some (np,pid)) { h with child := some ⟨np,fun _ => none,none⟩ }) : Meets contract allocproc Q h := by
  refine meets_op empty ?_
  rintro found _ rfl
  cases found with
  | none => exact bad
  | some found =>
    refine meets_free trivial (fun _ _ => rfl) fun stack => ?_
    cases stack with
    | true => exact made found.1 found.2
    | false =>
      refine meets_op rfl ?_
      rintro _ _ rfl
      have back : { h with child := none } = h := by rw [← empty]
      simp only [back]
      exact bad

theorem fork_files_meets {np : Proc} {given : Fd → Option File} {fds : List Fd} {Q : Unit → Hold → Prop} (once : fds.Nodup)
    (empty : ∀ fd ∈ fds, given fd = none) (held : ∀ fd f, h.ofile fd = some f → f ∈ h.files) (fresh : h.fresh = ∅)
    (rest : ∀ given, Q () { h with child := some ⟨np,given,none⟩ }) :
    Meets contract (fork_files np fds) Q { h with child := some ⟨np,given,none⟩ } := by
  induction fds generalizing given with
  | nil => exact rest given
  | cons fd fds ih =>
    obtain ⟨notHere,once⟩ := List.nodup_cons.mp once
    refine meets_look trivial (fun _ _ post => post.1) fun f isF => ?_
    have isF : f = h.ofile fd := isF.2
    cases f with
    | none => exact ih once fun fd' here => empty fd' (List.mem_cons_of_mem _ here)
    | some f =>
      refine meets_op (held fd f isF.symm) ?_
      rintro _ _ rfl
      refine meets_op ⟨mem_cons_self ..,_,rfl,rfl,empty fd List.mem_cons_self⟩ ?_
      rintro _ _ rfl
      simp only [dropFile,erase_cons_head,Option.map_some,fresh,Finset.erase_empty]
      rw [← fresh]
      refine ih once fun fd' here => ?_
      have other : fd' ≠ fd := fun same => notHere (same ▸ here)
      rw [update_of_ne other]
      exact empty fd' (List.mem_cons_of_mem _ here)

theorem fork_meets (rest : Rest h) : Meets contract fork Settled h := by
  have same : { h with child := none } = h := by rw [← rest.child]
  refine meets_bind (allocproc_meets rest.child rest fun np pid => ?_)
  refine meets_free trivial (fun _ _ => rfl) fun copied => ?_
  cases copied with
  | false =>
    refine meets_op rfl ?_
    rintro _ _ rfl
    simp only [same]
    exact rest
  | true =>
    refine meets_free ⟨_,rfl,rfl⟩ (fun _ _ => rfl) fun _ => ?_
    refine meets_bind (fork_files_meets (List.nodup_finRange _) (fun _ _ => rfl) (fun _ _ => rest.mem_files) rest.fresh fun given => ?_)
    refine meets_look trivial (fun _ _ post => post.1) fun cwd isCwd => ?_
    obtain ⟨e,stands⟩ := rest.stands
    have isCwd : cwd = some e := isCwd.2.trans stands.isCwd
    subst isCwd
    refine meets_op stands.held ?_
    rintro _ _ rfl
    refine meets_op ⟨mem_cons_self ..,_,rfl,rfl,rfl⟩ ?_
    rintro _ _ rfl
    refine meets_op ⟨_,rfl,rfl,nofun⟩ ?_
    rintro _ _ rfl
    simp only [addInode,dropInode,erase_cons_head,same]
    exact rest

structure Gone (h : Hold) : Prop where
  ofile : h.ofile = fun _ => none
  cwd : h.cwd = none
  files : h.files = 0
  inodes : h.inodes = 0
  fresh : h.fresh = ∅
  ends : h.ends = 0
  pages : h.pages = 0
  child : h.child = none

theorem exit_files_meets {fds : List Fd} {Q : Unit → Hold → Prop} (rest : Rest h) (closed : ∀ fd, fd ∉ fds → h.ofile fd = none)
    (done : ∀ h', Rest h' → h'.ofile = (fun _ => none) → Q () h') : Meets contract (exit_files fds) Q h := by
  induction fds generalizing h with
  | nil => exact done h rest (funext fun fd => closed fd List.not_mem_nil)
  | cons fd fds ih =>
    refine meets_look trivial (fun _ _ post => post.1) fun f isF => ?_
    have isF : f = h.ofile fd := isF.2
    cases f with
    | none =>
      refine ih rest fun fd' other => ?_
      by_cases same : fd' = fd
      · rw [same,← isF]
      · exact closed fd' (List.not_mem_cons_of_ne_of_not_mem same other)
    | some f =>
      refine meets_bind (fileclose_meets (rest.mem_files isF.symm) (meets_op trivial ?_))
      rintro _ _ rfl
      refine ih (rest.close isF.symm) fun fd' other => ?_
      show update h.ofile fd none fd' = none
      by_cases same : fd' = fd
      · rw [same,update_self]
      · rw [update_of_ne same]
        exact closed fd' (List.not_mem_cons_of_ne_of_not_mem same other)

theorem exit_meets (rest : Rest h) : Meets contract exit (fun _ => Gone) h := by
  refine meets_free trivial (fun _ _ => rfl) fun init => ?_
  cases init with
  | true => exact meets_panic (by decide)
  | false =>
    refine meets_bind (exit_files_meets rest (fun fd other => absurd (List.mem_finRange fd) other) fun h rest closed => ?_)
    refine meets_free trivial (fun _ _ => rfl) fun _ => ?_
    obtain ⟨e,here,only⟩ := rest.cwd
    refine meets_look trivial (fun _ _ post => post.1) fun cwd isCwd => ?_
    have isCwd : cwd = some e := isCwd.2.trans here
    subst isCwd
    have last : h = addInode { h with inodes := 0 } e := congrArg (fun inodes => { h with inodes := inodes }) only
    rw [last]
    refine meets_bind (iput_meets (meets_free trivial (fun _ _ => rfl) fun _ => meets_last trivial ?_))
    rintro _ _ rfl
    exact ⟨closed,rfl,rest.files.trans (by rw [closed,slots_none]),rfl,rest.fresh,rest.ends,rest.pages,rest.child⟩

theorem sys_wait_meets {args : Option Unit} (rest : Rest h) : Meets contract (sys_wait args) Settled h := by
  unfold sys_wait
  cases args with
  | none => exact rest
  | some _ =>
    refine meets_free trivial (fun _ _ => rfl) fun pid => ?_
    cases pid <;> exact rest

def Call.Leaves : Call → Hold → Prop
  | .exit, h => Gone h
  | _, h => Rest h

theorem Call.code_meets (c : Call) (rest : Rest h) : Meets contract c.code (fun _ => c.Leaves) h := by
  cases c with
  | dup fd => exact sys_dup_meets rest
  | close fd => exact sys_close_meets rest
  | link args => exact sys_link_meets rest
  | unlink path => exact sys_unlink_meets rest
  | «open» args => exact sys_open_meets rest
  | mkdir path => exact make_meets rest
  | mknod args => exact make_meets rest
  | chdir path => exact sys_chdir_meets rest
  | exec path => exact sys_exec_meets rest
  | pipe args => exact sys_pipe_meets rest
  | fork => exact fork_meets rest
  | exit => exact meets_bind (meets_mono (exit_meets rest) fun _ _ gone => gone)
  | wait args => exact sys_wait_meets rest

end

end Osce.Sys
