import HarambeOs.Calls
import HarambeOs.Files

/-!
# Transfers — what `c_read` and `c_getargs` write to the caller's memory

`Within` is what a read promises: no byte of the caller's memory changes outside the buffer, and the
value returned is `-1` or counts bytes of the buffer.  The file, directory and clock drivers keep
it.  `terminal_read` clears and counts a whole line of 128 bytes, and `c_getargs` clears 128 bytes,
whatever the size of the buffer.
-/

namespace HarambeOs

/-- A transfer into `buf[0..nbytes)`: the value returned and the caller's memory after. -/
def Within (nbytes : Int) (buf : Buf) (r : Int × Buf) : Prop :=
  (∀ j : Nat, nbytes ≤ j → r.2 j = buf j) ∧ (r.1 = -1 ∨ 0 ≤ r.1 ∧ r.1 ≤ nbytes)

/-- A call that fails, or returns 0, and writes nothing. -/
theorem within_same {nbytes v : Int} {buf : Buf} (h : 0 ≤ nbytes) (hv : v = -1 ∨ v = 0) :
    Within nbytes buf (v, buf) :=
  ⟨fun _ _ => rfl, by rcases hv with rfl | rfl <;> omega⟩

namespace Kernel

variable {img : Image} {tests : TestOutput} {k k' : Kernel} {fd : Nat} {buf beyond : Buf}
  {nbytes : Int}

/-- The value and the buffer of a `file_read`. -/
theorem fileRead_snd (fs : FileSystem) (pcb fd : Nat) (buf : Buf) (nbytes : Int) (k : Kernel) :
    ∃ bytes, bytes = fs.readData ((k.proc.slots k.running).fdArray fd).inode
        ((k.proc.slots k.running).fdArray fd).position (toUnsigned nbytes) ∧
      ((k.fileRead fs pcb fd buf nbytes).2 = (0, fun j => (bytes.getD []).getD j (buf j)) ∨
        (k.fileRead fs pcb fd buf nbytes).2 =
          (bytes.elim (-1 : Int) fun l => (l.length : Int),
            fun j => (bytes.getD []).getD j (buf j))) := by
  refine ⟨_, rfl, ?_⟩
  unfold fileRead
  dsimp only
  split
  · exact Or.inl rfl
  · exact Or.inr rfl

theorem fileRead_within (h : 0 ≤ nbytes) (pcb : Nat) :
    Within nbytes buf (k.fileRead (img.fileSystem tests) pcb fd buf nbytes).2 := by
  obtain ⟨bytes, hb, hr⟩ := k.fileRead_snd (img.fileSystem tests) pcb fd buf nbytes
  have hlen : ∀ l, bytes = some l → (l.length : Int) ≤ nbytes := by
    rintro l rfl
    have := Image.length_of_readData hb.symm
    rw [toUnsigned] at this
    omega
  have hframe : ∀ j : Nat, nbytes ≤ j → (bytes.getD []).getD j (buf j) = buf j := by
    intro j hj
    refine List.getD_eq_default _ _ ?_
    cases bytes with
    | none => exact Nat.zero_le j
    | some l => exact Int.ofNat_le.mp ((hlen l rfl).trans hj)
  rcases hr with hr | hr <;> rw [hr]
  · exact ⟨hframe, Or.inr ⟨Int.le_refl 0, h⟩⟩
  · refine ⟨hframe, ?_⟩
    cases bytes with
    | none => exact Or.inl rfl
    | some l => exact Or.inr ⟨Int.natCast_nonneg _, hlen l rfl⟩

theorem directRead_within {fs : FileSystem} {r : Int × Buf} (h : 0 ≤ nbytes)
    (hr : k.directRead fs fd buf nbytes = some (k', r)) : Within nbytes buf r := by
  unfold directRead at hr
  simp only at hr
  split at hr
  · obtain ⟨-, rfl⟩ := Prod.mk.inj (Option.some.inj hr)
    exact within_same h (Or.inr rfl)
  · split_ifs at hr
    · obtain ⟨-, rfl⟩ := Prod.mk.inj (Option.some.inj hr)
      exact within_same h (Or.inr rfl)
    · obtain ⟨-, rfl⟩ := Prod.mk.inj (Option.some.inj hr)
      refine ⟨fun j hj => if_neg ?_, Or.inr ⟨Int.natCast_nonneg _, ?_⟩⟩
      · omega
      · simp only
        omega

/-- **`terminal_read` keeps within a buffer of a whole line**, and no other. -/
theorem terminalRead_within {r : Int × Buf} (hr : k.terminalRead buf nbytes beyond = some (k', r)) :
    Within nbytes buf r ↔ numberCodes ≤ nbytes := by
  unfold terminalRead at hr
  split at hr
  · obtain ⟨-, rfl⟩ := Prod.mk.inj (Option.some.inj hr)
    constructor
    · rintro ⟨-, hv⟩
      simp only [numberCodes] at hv ⊢
      omega
    · intro hn
      refine ⟨fun j hj => ?_, Or.inr ⟨Int.natCast_nonneg _, hn⟩⟩
      simp only
      rw [if_neg (by omega), if_neg (by omega)]
  · cases hr

/-- **What `c_read` writes.**  Every read keeps within its buffer but one from a terminal into less
than a line. -/
theorem cRead_within {fd : Int} {r : Int} {buf' : Buf} (h : 0 ≤ nbytes)
    (hr : k.cRead (img.fileSystem tests) fd (some buf) nbytes beyond = some (k', r, some buf')) :
    Within nbytes buf (r, buf') ↔
      (k.readsTerminal (.read fd (some buf) nbytes beyond) = true → numberCodes ≤ nbytes) := by
  cases hterm : k.readsTerminal (.read fd (some buf) nbytes beyond) with
  | true =>
    rw [cRead_of_readsTerminal hterm] at hr
    obtain ⟨⟨k₁, r₁⟩, hr₁, heq⟩ := Option.map_eq_some_iff.mp hr
    simp only [Prod.mk.injEq, Option.some.injEq] at heq
    obtain ⟨rfl, rfl, rfl⟩ := heq
    exact (terminalRead_within hr₁).trans ⟨fun hn _ => hn, fun hn => hn rfl⟩
  | false =>
    refine iff_of_true ?_ fun hc => by cases hc
    generalize hout : (r, some buf') = out at hr
    generalize hin : some buf = inp at hr hterm
    cases cRead_reads hr with
    | refuse =>
      obtain ⟨rfl, hbuf⟩ := Prod.mk.inj hout
      obtain rfl := Option.some.inj (hbuf.trans hin.symm)
      exact within_same h (Or.inl rfl)
    | terminal _ ht =>
      rw [hterm] at ht
      cases ht
    | file hb _ _ _ =>
      obtain rfl := Option.some.inj (hin.trans hb)
      obtain ⟨rfl, hbuf⟩ := Prod.mk.inj hout
      obtain rfl := Option.some.inj hbuf
      rw [Prod.mk.eta]
      exact fileRead_within h _
    | directory hb _ hr =>
      obtain rfl := Option.some.inj (hin.trans hb)
      obtain ⟨rfl, hbuf⟩ := Prod.mk.inj hout
      obtain rfl := Option.some.inj hbuf
      exact directRead_within h hr
    | clock =>
      obtain ⟨rfl, hbuf⟩ := Prod.mk.inj hout
      obtain rfl := Option.some.inj (hbuf.trans hin.symm)
      exact within_same h (Or.inr rfl)

/-- **`c_getargs` keeps within a buffer of 128 bytes**, and within a smaller one only when it
fails. -/
theorem cGetargs_within :
    (∀ buf buf', (k.cGetargs (some buf) nbytes).2.2 = some buf' →
        ∀ j : Nat, nbytes ≤ j → buf' j = buf j) ↔
      ((k.proc.argSize : Int) + 1 ≤ nbytes → 128 ≤ nbytes) := by
  rcases Int.lt_or_le nbytes (k.proc.argSize + 1) with hsize | hsize
  · refine iff_of_true (fun buf buf' hb j _ => ?_) fun hc => by omega
    rw [cGetargs, if_pos hsize] at hb
    rw [Option.some.inj hb]
  · have hok (buf : Buf) : (k.cGetargs (some buf) nbytes).2.2 =
        some fun j => if j < k.proc.argSize then k.proc.getArgs j
          else if j < 128 then nul else buf j := by
      rw [cGetargs, if_neg (by omega)]
    constructor
    · intro hframe _
      by_contra hn
      -- A byte right after the buffer is cleared.
      have hclear := hframe (fun _ => 97) _ (hok _) nbytes.toNat (by omega)
      simp only [if_neg (show ¬ nbytes.toNat < k.proc.argSize by omega),
        if_pos (show nbytes.toNat < 128 by omega)] at hclear
      cases hclear
    · intro hn buf buf' hb j hj
      have := hn hsize
      rw [hok] at hb
      rw [← Option.some.inj hb]
      simp only [if_neg (show ¬ j < k.proc.argSize by omega), if_neg (show ¬ j < 128 by omega)]

/-- **What the two calls write to the caller's memory.**  A completed `c_read` on any descriptor, in
any state of the devices, keeps within its buffer unless it reads a terminal into less than a whole
line; `c_getargs` keeps within its buffer unless it succeeds on one of less than 128 bytes. -/
theorem transfers_within (k : Kernel) {nbytes : Int} (h : 0 ≤ nbytes) :
    (∀ fd buf beyond k' r buf',
      k.cRead (img.fileSystem tests) fd (some buf) nbytes beyond = some (k', r, some buf') →
        (Within nbytes buf (r, buf') ↔
          (k.readsTerminal (.read fd (some buf) nbytes beyond) = true → numberCodes ≤ nbytes))) ∧
    ((∀ buf buf', (k.cGetargs (some buf) nbytes).2.2 = some buf' →
        ∀ j : Nat, nbytes ≤ j → buf' j = buf j) ↔
      ((k.proc.argSize : Int) + 1 ≤ nbytes → 128 ≤ nbytes)) :=
  ⟨fun _ _ _ _ _ _ hr => cRead_within h hr, cGetargs_within⟩

/-- Two bytes of the file `a` into a buffer of two. -/
theorem transfers_within_file : ∃ k r buf',
    reader.cRead ((Image.sample [97, 98, 99]).fileSystem noTests) 2 (some fun _ => 0) 2
      (fun _ => 0) = some (k, r, some buf') ∧ Within 2 (fun _ => 0) (r, buf') := by
  have hread : (reader.cRead ((Image.sample [97, 98, 99]).fileSystem noTests) 2 (some fun _ => 0) 2
      (fun _ => 0)).map (fun r => r.2.2.isSome) = some true := by
    decide +kernel
  obtain ⟨⟨k, r, out⟩, hr, hout⟩ := Option.map_eq_some_iff.mp hread
  obtain ⟨buf', rfl⟩ := Option.isSome_iff_exists.mp hout
  have hterm : reader.readsTerminal (.read 2 (some fun _ => 0) 2 fun _ => 0) = false := by decide
  refine ⟨k, r, buf', hr, ((transfers_within reader (by decide)).1 _ _ _ _ _ _ hr).mpr ?_⟩
  intro hc
  rw [hterm] at hc
  cases hc

/-- A shell that reads one byte of an empty line gets 128, and its memory after that byte is
cleared; so is the byte after a buffer of one that it gives to `c_getargs`. -/
theorem transfers_overrun : ∃ k k' buf' args,
    Runs.run (step ((Image.sample []).fileSystem noTests)) Boot.zero.kernel
      [.execute (some shell) ⟨0, 0⟩ [], .key 1 enter ⟨0, 0⟩ []] = some k ∧
    k.cRead ((Image.sample []).fileSystem noTests) 0 (some fun _ => 97) 1 (fun _ => 0) =
      some (k', 128, some buf') ∧ buf' 1 = nul ∧
    (k.cGetargs (some fun _ => 97) 1).2 = (0, some args) ∧ args 1 = nul := by
  have hrun : (Runs.run (step ((Image.sample []).fileSystem noTests)) Boot.zero.kernel
      [.execute (some shell) ⟨0, 0⟩ [], .key 1 enter ⟨0, 0⟩ []]).bind (fun k =>
        (k.cRead ((Image.sample []).fileSystem noTests) 0 (some fun _ => 97) 1 (fun _ => 0)).map
          fun r => (r.2.1, r.2.2.map (· 1), (k.cGetargs (some fun _ => 97) 1).2.1,
            (k.cGetargs (some fun _ => 97) 1).2.2.map (· 1))) =
      some (128, some nul, 0, some nul) := by
    decide +kernel
  obtain ⟨k, hk, hrun⟩ := Option.bind_eq_some_iff.mp hrun
  obtain ⟨⟨k', r, out⟩, hr, hrun⟩ := Option.map_eq_some_iff.mp hrun
  simp only [Prod.mk.injEq, Option.map_eq_some_iff] at hrun
  obtain ⟨rfl, ⟨buf', rfl, hbuf⟩, hzero, args, hargs, harg⟩ := hrun
  exact ⟨k, k', buf', args, hk, hr, hbuf, Prod.ext hzero hargs, harg⟩

end Kernel

end HarambeOs
