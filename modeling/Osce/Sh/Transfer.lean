import Osce.Sh.Pids

/-!
One pid on its way from `runcmd` to the shell. `runcmd` copies the integer as a string and writes as many bytes as the string has, and the shell
takes the first byte that it reads for the whole number.
-/
namespace Osce.Sh

def SIZEOF_INT : Nat := 4

/-- The bytes that `strcpy` stores, with the NUL, for what is in the memory from the source on. -/
def strcpy : List UInt8 → Option (List UInt8)
  | [] => none
  | c :: rest => if c = 0 then some [0] else (strcpy rest).map (c :: ·)

/-- `runcmd` for its pid, which has other memory behind it: the bytes that it stores in `buf`, and those that it writes to `fdToShell`. -/
def sendPid (pid : Nat) (behind : List UInt8) : Option (List UInt8 × List UInt8) := do
  let buf ← strcpy (intBytes pid ++ behind)
  pure (buf,str buf)

/-- The bytes fit in `buf`, there are some, and the shell gets the pid from them. -/
def RoundTrips (pid : Nat) : Prop :=
  ∀ behind, ∃ buf bytes, sendPid pid behind = some (buf,bytes) ∧ buf.length ≤ SIZEOF_INT ∧ bytes ≠ [] ∧ recievedPid bytes = pid

theorem str_cons (c : UInt8) (s : List UInt8) : str (c :: s) = if c = 0 then [] else c :: str s := by
  by_cases zero : c = 0
  · simp [str,zero]
  · simp [str,zero]

theorem strcpy_eq {src buf : List UInt8} (copied : strcpy src = some buf) : buf = str src ++ [0] ∧ str buf = str src := by
  induction src generalizing buf with
  | nil => cases copied
  | cons c rest ih =>
    rw [strcpy] at copied
    by_cases zero : c = 0
    · rw [if_pos zero] at copied
      cases copied
      simp [str_cons,zero]
    · rw [if_neg zero,Option.map_eq_some_iff] at copied
      obtain ⟨more,copied,rfl⟩ := copied
      obtain ⟨whole,same⟩ := ih copied
      constructor
      · simp [str_cons,zero,whole]
      · simp [str_cons,zero,same]

theorem strcpy_of_zero {src : List UInt8} (zero : 0 ∈ src) : ∃ buf, strcpy src = some buf := by
  induction src with
  | nil => cases zero
  | cons c rest ih =>
    rw [strcpy]
    by_cases first : c = 0
    · exact ⟨[0],if_pos first⟩
    · obtain ⟨buf,copied⟩ := ih ((List.mem_cons.mp zero).resolve_left (Ne.symm first))
      exact ⟨c :: buf,by rw [if_neg first,copied]; rfl⟩

theorem str_append {s behind : List UInt8} (zero : 0 ∈ s) : str (s ++ behind) = str s := by
  induction s with
  | nil => cases zero
  | cons c rest ih =>
    by_cases first : c = 0
    · simp [str_cons,first]
    · have later := ih ((List.mem_cons.mp zero).resolve_left (Ne.symm first))
      simp [str_cons,first,later]

theorem sendPid_eq {pid : Nat} (zero : 0 ∈ intBytes pid) (behind : List UInt8) :
    sendPid pid behind = some (Pids.pidBytes pid ++ [0],Pids.pidBytes pid) := by
  obtain ⟨buf,copied⟩ := strcpy_of_zero (by simp [zero] : 0 ∈ intBytes pid ++ behind)
  obtain ⟨whole,same⟩ := strcpy_eq copied
  have bytes : str (intBytes pid ++ behind) = Pids.pidBytes pid := str_append zero
  rw [bytes] at whole same
  rw [sendPid,copied,Option.bind_eq_bind,Option.bind_some,same,whole]
  rfl

theorem recievedPid_le (bytes : List UInt8) : recievedPid bytes ≤ 127 := by
  have := (bytes.headD 0).toInt8.toInt_lt
  rw [recievedPid]
  omega

theorem recievedPid_small : ∀ pid < 128, recievedPid [UInt8.ofNat pid] = (pid : Int) := by decide

theorem zero_mem_small {pid : Nat} (small : pid < 128) : 0 ∈ intBytes pid := by
  have second : pid / 2 ^ 8 = 0 := Nat.div_eq_of_lt (by omega)
  rw [intBytes,second]
  exact List.mem_cons_of_mem _ (List.mem_cons_self ..)

/-- The pid reaches the shell exactly if it is below 128. -/
theorem pid_round_trip (pid : Nat) (positive : 1 ≤ pid) (fits : pid < 2 ^ 31) : RoundTrips pid ↔ pid ≤ 127 := by
  constructor
  · intro trip
    obtain ⟨buf,bytes,-,-,-,same⟩ := trip []
    have := recievedPid_le bytes
    omega
  · intro small behind
    refine ⟨_,_,sendPid_eq (zero_mem_small (by omega)) behind,?_⟩
    rw [Pids.pidBytes_small pid (by omega) (by omega)]
    exact ⟨by simp [SIZEOF_INT],by simp,recievedPid_small pid (by omega)⟩

theorem pid_round_trip_three : RoundTrips 3 := (pid_round_trip 3 (by decide) (by decide)).mpr (by decide)

/-- For the pid 256 nothing is written, 128 becomes negative, and 0x01010101 does not fit in `buf`. -/
theorem pid_lost : (∀ behind, sendPid 256 behind = some ([0],[])) ∧ (∀ behind, sendPid 128 behind = some ([128,0],[128])) ∧
    recievedPid [128] = -128 ∧ sendPid 0x01010101 [0] = some ([1,1,1,1,0],[1,1,1,1]) ∧
    ¬RoundTrips 256 ∧ ¬RoundTrips 128 ∧ ¬RoundTrips 0x01010101 := by
  refine ⟨fun behind => rfl,fun behind => rfl,rfl,rfl,?_,?_,?_⟩
  · intro trip
    obtain ⟨buf,bytes,sent,-,some,-⟩ := trip []
    cases sent
    exact some rfl
  · intro trip
    obtain ⟨buf,bytes,sent,-,-,same⟩ := trip []
    cases sent
    cases same
  · intro trip
    obtain ⟨buf,bytes,sent,fits,-,-⟩ := trip [0]
    cases sent
    exact absurd fits (by decide)

end Osce.Sh
