import InMemoryTable.Resources

/-! The constructors call by call: what each call of them may do to the kernel,
for proofs about processes that look on. -/
namespace InMemoryTable
open Program

variable {B : Type} {platform : Platform B} {kernel : Kernel B} {name : String}
  {guarantee : Kernel B → Kernel B → Prop}

namespace Kernel

theorem createObject_eq (platform : Platform B) (kernel : Kernel B) (name : String) :
    kernel.createObject platform name =
      kernel.withBlock platform name ⟨0, platform.zeroMemory⟩ := by
  ext1 <;> simp [withBlock, setObject, createObject]

@[simp] theorem withBlock_setObject (platform : Platform B) (kernel : Kernel B) (name : String)
    (object later : ShmObject B) :
    (kernel.withBlock platform name object).setObject kernel.nextObject later =
      kernel.withBlock platform name later := by
  ext1 <;> simp [withBlock, setObject, createObject]

@[simp] theorem withBlock_names_self (platform : Platform B) (kernel : Kernel B) (name : String)
    (object : ShmObject B) :
    (kernel.withBlock platform name object).names name = some kernel.nextObject :=
  Function.update_self ..

end Kernel

/-- A new block of `size` zeros. -/
abbrev Kernel.zeroBlock (platform : Platform B) (kernel : Kernel B) (name : String) (size : Nat) :
    Kernel B :=
  kernel.withBlock platform name ⟨size, platform.zeroMemory⟩

theorem unlink_zeroBlock (platform : Platform B) (kernel : Kernel B) (name : String) (size : Nat) :
    platform.exec noFault (kernel.zeroBlock platform name size) (.shmUnlink name) =
      (.ok (), (kernel.zeroBlock platform name size).removeName name) := by
  simp [Platform.exec, Kernel.shmUnlink]

theorem Block.new_sat {totalSize : Nat} {post : Except InMemoryTableError Block → Kernel B → Prop}
    (free : kernel.names name = none)
    (created : guarantee kernel (kernel.zeroBlock platform name 0))
    (changed : ∀ size later, guarantee (kernel.zeroBlock platform name size)
      (kernel.zeroBlock platform name later))
    (removed : ∀ size, guarantee (kernel.zeroBlock platform name size)
      ((kernel.zeroBlock platform name size).removeName name))
    (ok : post (.ok ⟨name, pageSize * platform.page kernel.nextObject, totalSize,
      kernel.nextObject⟩) (kernel.zeroBlock platform name totalSize))
    (error : ∀ e t, t.existing = kernel.existing → post (.error e) t) :
    (Block.new platform name totalSize).program.Sat (platform.exec noFault) Eq guarantee kernel
      post := by
  by_cases noNul : Char.ofNat 0 ∈ name.toList
  · have invalid : cString name = .error (.invalidName name) := if_pos noNul
    rw [Block.new, invalid]
    rintro t rfl
    exact error _ _ rfl
  have restored : ∀ size,
      ((kernel.zeroBlock platform name size).removeName name).existing = kernel.existing :=
    fun size => Kernel.removeName_createObject platform kernel free
  have opened : platform.exec noFault kernel (.shmOpenNew name) =
      (.ok kernel.nextObject, kernel.zeroBlock platform name 0) := by
    simp only [Platform.exec, noFault, Kernel.orFault, Kernel.shmOpenNew, free,
      Kernel.createObject_eq]
  have cleanup : ∀ size (e : InMemoryTableError),
      (do
        let _ ← perform (.shmUnlink name)
        throw e : Call Block).program.Sat (platform.exec noFault) Eq guarantee
        (kernel.zeroBlock platform name size) post := by
    intro size e
    refine .reply (unlink_zeroBlock platform kernel name size) (removed size) ?_
    exact .throw (fun t same => same ▸ error e _ (restored size))
  refine .ofExcept (if_neg noNul) (.reply opened created ?_)
  by_cases signed : asI64 totalSize < 0
  · have refused : platform.exec noFault (kernel.zeroBlock platform name 0)
        (.ftruncate kernel.nextObject totalSize) =
          (.error .einval, kernel.zeroBlock platform name 0) := by
      rw [exec_ftruncate rfl, Kernel.ftruncate, if_pos signed]
    exact .reply refused (changed 0 0) (cleanup 0 _)
  have sized : platform.exec noFault (kernel.zeroBlock platform name 0)
      (.ftruncate kernel.nextObject totalSize) =
        (.ok (), kernel.zeroBlock platform name totalSize) := by
    rw [exec_ftruncate rfl, Kernel.ftruncate, if_neg signed, Kernel.withBlock_object,
      Kernel.withBlock_setObject]
  refine .reply sized (changed 0 totalSize) ?_
  by_cases nonempty : totalSize = 0
  · have refused : platform.exec noFault (kernel.zeroBlock platform name totalSize)
        (.mmap kernel.nextObject totalSize) =
          (.error .einval, kernel.zeroBlock platform name totalSize) := by
      rw [exec_mmap rfl, Kernel.mmap, if_pos nonempty]
    exact .reply refused (changed totalSize totalSize) (cleanup totalSize _)
  have mapped : platform.exec noFault (kernel.zeroBlock platform name totalSize)
      (.mmap kernel.nextObject totalSize) =
        (.ok (pageSize * platform.page kernel.nextObject),
          kernel.zeroBlock platform name totalSize) := by
    rw [exec_mmap rfl, Kernel.mmap, if_neg nonempty]
  refine .reply mapped (changed totalSize totalSize) ?_
  have zeroed : platform.exec noFault (kernel.zeroBlock platform name totalSize)
      (.writeBytes kernel.nextObject totalSize) = ((), kernel.zeroBlock platform name totalSize) :=
    congrArg (Prod.mk ()) (Kernel.withBlock_setMemory ..)
  exact .reply zeroed (changed totalSize totalSize) (.pure fun t same => same ▸ ok)

namespace SemaphoreSet

/-- A new set whose first `position` semaphores have been reset. -/
abbrev resetSet (kernel : Kernel B) (key : Int32) (size position : Nat) : Kernel B :=
  kernel.createSet key ⟨size, resetUpTo position⟩

/-- The number of semaphores is the one asked for, unless it was cut to 32 bits;
then the first one beyond the end of the set is refused. -/
theorem semReset_sat {key : Int32} {size total : Nat}
    {post : Except InMemoryTableError Unit → Kernel B → Prop} (free : kernel.keys key = none)
    (small : size ≤ 65535)
    (changed : ∀ position < size, guarantee (resetSet kernel key size position)
      (resetSet kernel key size (position + 1)))
    (refused : size < total → guarantee (resetSet kernel key size size)
      (resetSet kernel key size size))
    (removed : size < total → guarantee (resetSet kernel key size size)
      ((resetSet kernel key size size).removeSet kernel.nextSet))
    (ok : total ≤ size → post (.ok ()) (resetSet kernel key size total))
    (error : ∀ e t, t.existing = kernel.existing → post (.error e) t)
    (remaining position : Nat) (inside : position + remaining = total) (reached : position ≤ size) :
    (semReset kernel.nextSet total position remaining).program.Sat (platform.exec noFault) Eq
      guarantee (resetSet kernel key size position) post := by
  induction remaining generalizing position with
  | zero =>
    obtain rfl : position = total := by omega
    exact .pure fun t same => same ▸ ok reached
  | succ remaining ih =>
    have number : asU16 position = position := asU16_of_lt (by omega)
    rcases reached.lt_or_eq with valid | rfl
    · have reset : platform.exec noFault (resetSet kernel key size position)
          (.semop kernel.nextSet (asU16 position)) =
            (.ok (), resetSet kernel key size (position + 1)) := by
        rw [number, exec_semop rfl, Kernel.createSet_semop, if_pos valid, unlock_resetUpTo]
      exact .reply reset (changed position valid) (ih (position + 1) (by omega) valid)
    · have beyond : platform.exec noFault (resetSet kernel key position position)
          (.semop kernel.nextSet (asU16 position)) =
            (.error .efbig, resetSet kernel key position position) := by
        rw [number, exec_semop rfl, Kernel.createSet_semop, if_neg (Nat.lt_irrefl position)]
      have cleanup : platform.exec noFault (resetSet kernel key position position)
          (.semctlRmid kernel.nextSet) =
            (.ok (), (resetSet kernel key position position).removeSet kernel.nextSet) := by
        simp [Platform.exec, Kernel.semctlRmid]
      refine .reply beyond (refused (by omega)) (.reply cleanup (removed (by omega)) ?_)
      exact .throw fun t same => same ▸ error _ _ (kernel.removeSet_createSet free _)

theorem create_sat {numRecords : Nat}
    {post : Except InMemoryTableError SemaphoreSet → Kernel B → Prop}
    (free : kernel.keys (generateSemKey name) = none) (same : guarantee kernel kernel)
    (created : ∀ size : Nat, asI32 (stripesFor numRecords) = size →
      guarantee kernel (resetSet kernel (generateSemKey name) size 0))
    (changed : ∀ size : Nat, asI32 (stripesFor numRecords) = size → ∀ position < size,
      guarantee (resetSet kernel (generateSemKey name) size position)
        (resetSet kernel (generateSemKey name) size (position + 1)))
    (refused : ∀ size : Nat, asI32 (stripesFor numRecords) = size → size < stripesFor numRecords →
      guarantee (resetSet kernel (generateSemKey name) size size)
        (resetSet kernel (generateSemKey name) size size))
    (removed : ∀ size : Nat, asI32 (stripesFor numRecords) = size → size < stripesFor numRecords →
      guarantee (resetSet kernel (generateSemKey name) size size)
        ((resetSet kernel (generateSemKey name) size size).removeSet kernel.nextSet))
    (ok : post (.ok (ofRecords kernel.nextSet numRecords))
      (resetSet kernel (generateSemKey name) (stripesFor numRecords) (stripesFor numRecords)))
    (error : ∀ e t, t.existing = kernel.existing → post (.error e) t) :
    (create platform name numRecords).program.Sat (platform.exec noFault) Eq guarantee kernel
      post := by
  obtain ⟨errno, failed⟩ | ⟨size, cut, -, bounded, -, gotten⟩ :=
    kernel.semgetNew_cases platform (generateSemKey name) (asI32 (stripesFor numRecords))
  · refine .reply ((exec_semgetNew rfl).trans failed) same (.throw fun t same => ?_)
    exact same ▸ error _ _ rfl
  have small := bounded.trans platform.semmsl_le
  have gotten : platform.exec noFault kernel
      (.semgetNew (generateSemKey name) (asI32 (stripesFor numRecords))) =
        (.ok kernel.nextSet, resetSet kernel (generateSemKey name) size 0) := by
    rw [exec_semgetNew rfl, gotten, resetSet, resetUpTo_zero]
  refine .reply gotten (created size cut) (.seq (fun _ => rfl) ?_)
  refine semReset_sat free small (changed size cut) (refused size cut) (removed size cut) ?_ ?_
    (stripesFor numRecords) 0 (by omega) (Nat.zero_le size)
  · intro whole
    have same_size : size = stripesFor numRecords := by
      have stripes_small : stripesFor numRecords ≤ 65535 := whole.trans small
      rw [asI32_of_le stripes_small] at cut
      exact (Int.ofNat.inj cut).symm
    subst same_size
    exact .pure fun t same => same ▸ ok
  · exact fun e t restored u same => same ▸ error e t restored

end SemaphoreSet

/-! ### Opening -/

/-- The calls that only look. -/
def Action.Reads : Action → Prop
  | shmOpen _ | fstat _ | mmap _ _ | semget _ _ | isValid _ | readCapacity _ => True
  | _ => False

theorem exec_reads {action : Action} (reads : action.Reads) (t : Kernel B) :
    (platform.exec noFault t action).2 = t := by
  cases action <;> first | exact reads.elim | skip
  case shmOpen name =>
    simp only [Platform.exec, noFault, Kernel.orFault, Kernel.shmOpen]
    split <;> rfl
  case mmap fd length =>
    rw [exec_mmap rfl, Kernel.mmap]
    split <;> rfl
  case semget key nsems =>
    rw [exec_semget rfl]
    obtain ⟨errno, failed⟩ | ⟨semId, -, found⟩ := t.semget_cases platform key nsems
    · rw [failed]
    · rw [found]
  all_goals rfl

section Open
variable {s t : Kernel B} {rely : Kernel B → Kernel B → Prop}

/-- Between `s` and `t` there was a moment that satisfies `P`. -/
def Moment (rely : Kernel B → Kernel B → Prop) (s t : Kernel B) (P : Kernel B → Prop) : Prop :=
  ∃ u, rely s u ∧ P u ∧ rely u t

/-- What an opened block says about the kernel. -/
structure Block.Seen (platform : Platform B) (rely : Kernel B → Kernel B → Prop) (s : Kernel B)
    (name : String) (result : Except InMemoryTableError Block) (t : Kernel B) : Prop where
  later : rely s t
  page : ∀ block, result = .ok block → block.ptr = pageSize * platform.page block.fd
  named : ∀ block, result = .ok block →
    Moment rely s t (fun u => u.names name = some block.fd)

theorem Block.Seen.error {name : String} {e : InMemoryTableError} (later : rely s t) :
    Block.Seen platform rely s name (.error e) t where
  later
  page block impossible := by simp at impossible
  named block impossible := by simp at impossible

theorem Block.openExisting_sat (platform : Platform B) (name : String)
    (transitive : ∀ {t u v}, rely t u → rely u v → rely t v) :
    (Block.openExisting platform name).program.Sat (platform.exec noFault) rely Eq s
      (Block.Seen platform rely s name) := by
  by_cases noNul : Char.ofNat 0 ∈ name.toList
  · have invalid : cString name = .error (.invalidName name) := if_pos noNul
    rw [Block.openExisting, invalid]
    exact fun t later => .error later
  refine .ofExcept (if_neg noNul) (.ask (exec_reads trivial) (fun _ => rfl) ?_)
  intro u opened
  cases named : u.names name with
  | none =>
    have reply : (platform.exec noFault u (.shmOpen name)).1 = .error .enoent := by
      simp [Platform.exec, noFault, Kernel.orFault, Kernel.shmOpen, named]
    rw [reply]
    exact .throw fun t later => .error (transitive opened later)
  | some fd =>
    have reply : (platform.exec noFault u (.shmOpen name)).1 = .ok fd := by
      simp [Platform.exec, noFault, Kernel.orFault, Kernel.shmOpen, named]
    rw [reply]
    refine .ask (exec_reads trivial) (fun _ => rfl) (fun v measured => ?_)
    refine .ask (exec_reads trivial) (fun _ => rfl) (fun w mapped => ?_)
    have later := transitive measured mapped
    by_cases nonempty : (v.objects fd).size = 0
    · have reply : (platform.exec noFault w (.mmap fd (v.objects fd).size)).1 =
          .error .einval := by
        rw [exec_mmap rfl, Kernel.mmap, if_pos nonempty]
      simp only [Platform.exec, noFault, Kernel.orFault] at reply ⊢
      rw [reply]
      exact fun t more => .error (transitive opened (transitive later more))
    · have reply : (platform.exec noFault w (.mmap fd (v.objects fd).size)).1 =
          .ok (pageSize * platform.page fd) := by
        rw [exec_mmap rfl, Kernel.mmap, if_neg nonempty]
      simp only [Platform.exec, noFault, Kernel.orFault] at reply ⊢
      rw [reply]
      intro t more
      refine ⟨transitive opened (transitive later more), ?_, ?_⟩
      · rintro block made
        obtain rfl := Except.ok.inj made
        rfl
      · rintro block made
        obtain rfl := Except.ok.inj made
        exact ⟨u, opened, named, transitive later more⟩

/-- What an opened semaphore set says about the kernel. -/
structure SemaphoreSet.Seen (rely : Kernel B → Kernel B → Prop) (s : Kernel B) (name : String)
    (numRecords : Nat) (result : Except InMemoryTableError SemaphoreSet) (t : Kernel B) :
    Prop where
  later : rely s t
  fields : ∀ semaphores, result = .ok semaphores →
    semaphores = .ofRecords semaphores.semId numRecords
  keyed : ∀ semaphores, result = .ok semaphores →
    Moment rely s t (fun u => u.keys (generateSemKey name) = some semaphores.semId)

theorem SemaphoreSet.openExisting_sat (platform : Platform B) (name : String) (numRecords : Nat)
    (transitive : ∀ {t u v}, rely t u → rely u v → rely t v) :
    (SemaphoreSet.openExisting platform name numRecords).program.Sat (platform.exec noFault) rely
      Eq s (SemaphoreSet.Seen rely s name numRecords) := by
  rw [SemaphoreSet.openExisting]
  generalize asI32 (stripesFor numRecords) = nsems
  refine .ask (exec_reads trivial) (fun _ => rfl) (fun u looked => ?_)
  rw [exec_semget rfl]
  obtain ⟨errno, failed⟩ | ⟨semId, keyed, found⟩ :=
    u.semget_cases platform (generateSemKey name) nsems
  · rw [failed]
    refine .throw fun t more => ⟨transitive looked more, ?_, ?_⟩
    · exact fun semaphores impossible => by simp at impossible
    · exact fun semaphores impossible => by simp at impossible
  · rw [found]
    refine .pure fun t more => ⟨transitive looked more, ?_, ?_⟩
    · rintro semaphores made
      obtain rfl := Except.ok.inj made
      rfl
    · rintro semaphores made
      obtain rfl := Except.ok.inj made
      exact ⟨u, looked, keyed, more⟩

end Open
end InMemoryTable
