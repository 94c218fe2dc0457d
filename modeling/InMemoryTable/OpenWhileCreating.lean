import InMemoryTable.ConstructorSteps

/-! One process creates a table while any number of others open it. What makes
an opened table complete is the order in which the resources appear: the index
semaphores are created last and looked for last. -/
namespace InMemoryTable
open Program Interleaving Transition

variable {K B : Type}

/-- A creation that starts when none of the resources of the name exist. -/
structure Creation (K B : Type) where
  platform : Platform B
  layout : NodeLayout K B
  hasher : K → Nat
  name : String
  capacity : Nat
  recordSize : Nat
  before : Kernel B
  absent : ∀ r, before.resource name r = none
  distinct : SemaphoreSet.generateSemKey (indexName name) ≠ SemaphoreSet.generateSemKey name

namespace Creation
variable (creation : Creation K B)

def create : Call (SharedTable K B) :=
  SharedTable.createWithSize creation.platform creation.layout creation.hasher creation.name
    creation.capacity creation.recordSize

def openExisting : Call (SharedTable K B) :=
  SharedTable.openExisting creation.platform creation.layout creation.hasher creation.name

def key : Int32 := SemaphoreSet.generateSemKey creation.name

def indexKey : Int32 := SemaphoreSet.generateSemKey (indexName creation.name)

/-! ### The kernel after each stage of the creation -/

def headed : Kernel B :=
  creation.before.withBlock creation.platform creation.name
    ⟨Table.calculateTotalSize creation.capacity creation.recordSize,
      { creation.platform.zeroMemory with header := .new creation.capacity }⟩

def data : Kernel B :=
  SharedTable.withBlock creation.platform creation.name creation.capacity creation.recordSize
    creation.before

def ready : Kernel B :=
  SharedTable.withSemaphores creation.platform creation.name creation.capacity
    creation.recordSize creation.before

def index : Kernel B :=
  SharedIndex.withBlock creation.platform creation.layout creation.name creation.capacity
    creation.ready

/-- All resources are there; `value` is that of the index semaphore. -/
def published (value : Nat) : Kernel B :=
  SemaphoreSet.resetSet creation.index creation.indexKey 1 value

def Published (kernel : Kernel B) : Prop :=
  kernel = creation.published 0 ∨ kernel = creation.published 1

/-- The header in the block of the table. -/
def header (kernel : Kernel B) : TableHeader :=
  (kernel.objects creation.before.nextObject).memory.header

/-! ### What holds at every moment -/

structure Inv (kernel : Kernel B) : Prop where
  block : ∀ fd, kernel.names creation.name = some fd → fd = creation.before.nextObject
  header : creation.before.nextObject < kernel.nextObject →
    (creation.header kernel).isValid = true → creation.header kernel = .new creation.capacity
  semaphores : ∀ semId, kernel.keys creation.key = some semId → semId = creation.before.nextSet
  indexBlock : ∀ fd, kernel.names (indexName creation.name) = some fd →
    fd = creation.before.nextObject + 1
  published : kernel.keys creation.indexKey ≠ none → creation.Published kernel

/-- What a process that opens the table may rely on. -/
structure Evolves (s t : Kernel B) : Prop where
  inv : creation.Inv s → creation.Inv t
  begun : s.nextObject ≤ t.nextObject
  headed : creation.before.nextObject < s.nextObject →
    creation.header s = .new creation.capacity → creation.header t = .new creation.capacity
  published : creation.Published s → creation.Published t

/-- What the creating process promises with each of its calls. -/
structure Guarantee (s t : Kernel B) : Prop where
  evolves : creation.Evolves s t
  released : s = creation.published 0 → t = creation.published 1

/-- Before the index semaphores appear. -/
structure Early (kernel : Kernel B) : Prop where
  block : ∀ fd, kernel.names creation.name = some fd → fd = creation.before.nextObject
  header : creation.before.nextObject < kernel.nextObject →
    (creation.header kernel).isValid = true → creation.header kernel = .new creation.capacity
  semaphores : ∀ semId, kernel.keys creation.key = some semId → semId = creation.before.nextSet
  indexBlock : ∀ fd, kernel.names (indexName creation.name) = some fd →
    fd = creation.before.nextObject + 1
  unpublished : kernel.keys creation.indexKey = none

variable {creation} {s t u : Kernel B}

theorem Evolves.refl (s : Kernel B) : creation.Evolves s s where
  inv := id
  begun := Nat.le_refl _
  headed _ := id
  published := id

theorem Evolves.trans (first : creation.Evolves s t) (second : creation.Evolves t u) :
    creation.Evolves s u where
  inv holds := second.inv (first.inv holds)
  begun := first.begun.trans second.begun
  headed begun headed := second.headed (begun.trans_le first.begun) (first.headed begun headed)
  published holds := second.published (first.published holds)

theorem published_keys (value : Nat) : (creation.published value).keys creation.indexKey ≠ none :=
  Option.ne_none_iff_exists'.mpr ⟨_, Function.update_self ..⟩

theorem Published.keys (published : creation.Published s) : s.keys creation.indexKey ≠ none := by
  rcases published with rfl | rfl
  · exact published_keys 0
  · exact published_keys 1

theorem Early.inv (early : creation.Early s) : creation.Inv s where
  block := early.block
  header := early.header
  semaphores := early.semaphores
  indexBlock := early.indexBlock
  published present := absurd early.unpublished present

/-- A call before the index semaphores appear. -/
theorem Early.step (first : creation.Early s) (second : creation.Early t)
    (begun : s.nextObject ≤ t.nextObject)
    (headed : creation.before.nextObject < s.nextObject →
      creation.header s = .new creation.capacity → creation.header t = .new creation.capacity) :
    creation.Guarantee s t where
  evolves :=
    { inv := fun _ => second.inv
      begun
      headed
      published := fun present => absurd first.unpublished present.keys }
  released same := absurd first.unpublished (same ▸ published_keys 0)

/-- Fewer names and keys. -/
theorem Early.fewer (early : creation.Early s) (objects : t.objects = s.objects)
    (nextObject : t.nextObject = s.nextObject)
    (names : ∀ name fd, t.names name = some fd → s.names name = some fd)
    (keys : ∀ key semId, t.keys key = some semId → s.keys key = some semId) :
    creation.Early t where
  block fd named := early.block fd (names _ fd named)
  header begun valid := by
    simp only [Creation.header, objects, nextObject] at begun valid ⊢
    exact early.header begun valid
  semaphores semId keyed := early.semaphores semId (keys _ semId keyed)
  indexBlock fd named := early.indexBlock fd (names _ fd named)
  unpublished := by
    by_contra present
    obtain ⟨semId, keyed⟩ := Option.ne_none_iff_exists'.mp present
    have before := keys _ semId keyed
    rw [early.unpublished] at before
    contradiction

/-- A failed stage that has cleaned up leaves no index semaphores. -/
theorem Early.restored (early : creation.Early s) (same : t.existing = s.existing) :
    t.keys creation.indexKey = none := by
  have keys : t.keys = s.keys := (Prod.mk.inj (Prod.mk.inj same).2).1
  rw [keys]
  exact early.unpublished

theorem Early.removeName (early : creation.Early s) (name : String) :
    creation.Early (s.removeName name) :=
  early.fewer rfl rfl
    (fun other fd named => by
      by_cases same : other = name
      · subst same
        simp [Kernel.removeName] at named
      · exact (Function.update_of_ne same ..).symm.trans named)
    (fun _ _ keyed => keyed)

theorem Early.removeSet (early : creation.Early s) (semId : Nat) :
    creation.Early (s.removeSet semId) :=
  early.fewer rfl rfl (fun _ _ named => named)
    (fun key other keyed => by
      simp only [Kernel.removeSet] at keyed
      split at keyed
      · contradiction
      · exact keyed)

/-- The removals of a failed stage. -/
theorem Early.drop_name (early : creation.Early s) (name : String) :
    creation.Guarantee s (s.removeName name) :=
  early.step (early.removeName name) (Nat.le_refl _) (fun _ headed => headed)

theorem Early.drop_set (early : creation.Early s) (semId : Nat) :
    creation.Guarantee s (s.removeSet semId) :=
  early.step (early.removeSet semId) (Nat.le_refl _) (fun _ headed => headed)

theorem early_before : creation.Early creation.before where
  block fd named := by
    have absent : creation.before.names creation.name = none := creation.absent .block
    exact absurd (absent.symm.trans named) (by simp)
  header begun := absurd begun (Nat.lt_irrefl _)
  semaphores semId keyed := by
    have absent : creation.before.keys creation.key = none := creation.absent .semaphores
    exact absurd (absent.symm.trans keyed) (by simp)
  indexBlock fd named := by
    have absent : creation.before.names (indexName creation.name) = none :=
      creation.absent .indexBlock
    exact absurd (absent.symm.trans named) (by simp)
  unpublished := creation.absent .indexSemaphores

/-- The data block at some stage. -/
theorem early_block (object : ShmObject B)
    (valid : object.memory.header.isValid = true →
      object.memory.header = .new creation.capacity) :
    creation.Early (creation.before.withBlock creation.platform creation.name object) where
  block fd named := Option.some.inj (named.symm.trans (Kernel.withBlock_names_self ..))
  header _ := by
    simpa only [Creation.header, Kernel.withBlock_object] using valid
  semaphores := early_before.semaphores
  indexBlock fd named := by
    have other := Function.update_of_ne (indexName_ne creation.name)
      (some creation.before.nextObject) creation.before.names
    exact early_before.indexBlock fd (other.symm.trans named)
  unpublished := early_before.unpublished

theorem Early.createSet (early : creation.Early s) (next : s.nextSet = creation.before.nextSet)
    (set : SemSet) : creation.Early (s.createSet creation.key set) where
  block := early.block
  header := early.header
  semaphores semId keyed := by
    have self := Function.update_self creation.key (some s.nextSet) s.keys
    exact (Option.some.inj (keyed.symm.trans self)).trans next
  indexBlock := early.indexBlock
  unpublished := by
    have other : (s.createSet creation.key set).keys creation.indexKey =
        s.keys creation.indexKey := Function.update_of_ne creation.distinct ..
    exact other.trans early.unpublished

theorem header_indexBlock (next : s.nextObject = creation.before.nextObject + 1)
    (object : ShmObject B) :
    creation.header (s.withBlock creation.platform (indexName creation.name) object) =
      creation.header s := by
  have apart : creation.before.nextObject ≠ s.nextObject := by omega
  simp [Creation.header, Kernel.withBlock, Function.update_of_ne apart]

theorem Early.indexBlocked (early : creation.Early s)
    (next : s.nextObject = creation.before.nextObject + 1) (object : ShmObject B) :
    creation.Early (s.withBlock creation.platform (indexName creation.name) object) where
  block fd named := by
    have other := Function.update_of_ne (indexName_ne creation.name).symm (some s.nextObject)
      s.names
    exact early.block fd (other.symm.trans named)
  header _ valid := by
    rw [header_indexBlock next] at valid ⊢
    exact early.header (by omega) valid
  semaphores := early.semaphores
  indexBlock fd named := by
    exact (Option.some.inj (named.symm.trans (Kernel.withBlock_names_self ..))).trans next
  unpublished := early.unpublished

/-! ### The creating process -/

/-- What the creating process ends with. -/
structure Created (creation : Creation K B)
    (result : Except InMemoryTableError (SharedTable K B)) (t : Kernel B) : Prop where
  released : t.keys creation.indexKey ≠ none → t = creation.published 1
  handle : ∀ table, result = .ok table →
    table = SharedTable.handle creation.platform creation.layout creation.hasher creation.name
      creation.capacity creation.recordSize creation.before.nextObject creation.before.nextSet

theorem Created.error {e : InMemoryTableError} (same : t.keys creation.indexKey = none) :
    creation.Created (.error e) t where
  released present := absurd same present
  handle table impossible := by simp at impossible

theorem early_zero (creation : Creation K B) (size : Nat) :
    creation.Early (creation.before.zeroBlock creation.platform creation.name size) := by
  apply early_block
  intro valid
  simp [Platform.zeroMemory, TableHeader.isValid, TableHeader.MAGIC] at valid

theorem early_headed (creation : Creation K B) : creation.Early creation.headed :=
  early_block _ (fun _ => rfl)

theorem early_data (creation : Creation K B) : creation.Early creation.data :=
  early_block _ (fun _ => rfl)

theorem early_resetSet (creation : Creation K B) (size position : Nat) :
    creation.Early (SemaphoreSet.resetSet creation.data creation.key size position) :=
  (early_data creation).createSet rfl _

theorem early_ready (creation : Creation K B) : creation.Early creation.ready :=
  early_resetSet ..

theorem early_indexZero (creation : Creation K B) (size : Nat) :
    creation.Early
      (creation.ready.zeroBlock creation.platform (indexName creation.name) size) :=
  (early_ready creation).indexBlocked rfl _

theorem early_index (creation : Creation K B) : creation.Early creation.index :=
  (early_ready creation).indexBlocked rfl _

theorem published_inv (creation : Creation K B) {value : Nat}
    (published : creation.Published (creation.published value)) :
    creation.Inv (creation.published value) where
  block := (early_index creation).block
  header := (early_index creation).header
  semaphores semId keyed := by
    have other : (creation.published value).keys creation.key = creation.index.keys creation.key :=
      Function.update_of_ne creation.distinct.symm ..
    exact (early_index creation).semaphores semId (other.symm.trans keyed)
  indexBlock := (early_index creation).indexBlock
  published _ := published

/-- With the index semaphores all is there. -/
theorem publish (creation : Creation K B) :
    creation.Guarantee creation.index (creation.published 0) where
  evolves :=
    { inv := fun _ => published_inv creation (.inl rfl)
      begun := Nat.le_refl _
      headed := fun _ => id
      published := fun present => absurd (early_index creation).unpublished present.keys }
  released same := absurd (early_index creation).unpublished (same ▸ published_keys 0)

theorem release (creation : Creation K B) :
    creation.Guarantee (creation.published 0) (creation.published 1) where
  evolves :=
    { inv := fun _ => published_inv creation (.inr rfl)
      begun := Nat.le_refl _
      headed := fun _ => id
      published := fun _ => .inr rfl }
  released _ := rfl

/-- The last two calls of the creation. -/
theorem index_sat (creation : Creation K B)
    {post : Except InMemoryTableError SemaphoreSet → Kernel B → Prop}
    (ok : post (.ok (.ofRecords creation.index.nextSet 0)) (creation.published 1))
    (error : ∀ e t, t.existing = creation.index.existing → post (.error e) t) :
    (SemaphoreSet.create creation.platform (indexName creation.name) 0).program.Sat
      (creation.platform.exec noFault) Eq creation.Guarantee creation.index post := by
  have early := early_index creation
  have single : ∀ size : Nat, asI32 (SemaphoreSet.stripesFor 0) = size → size = 1 := by
    intro size cut
    rw [show SemaphoreSet.stripesFor 0 = 1 from rfl, SemaphoreSet.asI32_of_le (by decide)] at cut
    exact (Int.ofNat.inj cut).symm
  have whole : ∀ size : Nat, asI32 (SemaphoreSet.stripesFor 0) = size →
      ¬ size < SemaphoreSet.stripesFor 0 := by
    intro size cut
    rw [single size cut]
    exact Nat.lt_irrefl 1
  refine SemaphoreSet.create_sat early.unpublished (early.step early (Nat.le_refl _) (fun _ => id))
    ?_ ?_ ?_ ?_ ok error
  · intro size cut
    obtain rfl := single size cut
    exact publish creation
  · intro size cut position inside
    obtain rfl := single size cut
    obtain rfl : position = 0 := by omega
    exact release creation
  · exact fun size cut short => absurd short (whole size cut)
  · exact fun size cut short => absurd short (whole size cut)

/-- The creation of the index, from its block on. -/
theorem new_sat (creation : Creation K B)
    {post : Except InMemoryTableError (SharedIndex K B) → Kernel B → Prop}
    (ok : post (.ok (.handle creation.platform creation.layout creation.hasher creation.name
      creation.capacity creation.ready.nextObject creation.ready.nextSet)) (creation.published 1))
    (error : ∀ e t, t.keys creation.indexKey = none → post (.error e) t) :
    (SharedIndex.new creation.platform creation.layout creation.hasher creation.name
      creation.capacity).program.Sat (creation.platform.exec noFault) Eq creation.Guarantee
      creation.ready post := by
  have sameHeader : ∀ object, creation.header (creation.ready.withBlock creation.platform
      (indexName creation.name) object) = creation.header creation.ready :=
    header_indexBlock rfl
  have free : creation.ready.names (indexName creation.name) = none :=
    (SharedTable.withSemaphores_names_index ..).trans (creation.absent .indexBlock)
  have slots : creation.platform.exec noFault
      (creation.ready.zeroBlock creation.platform (indexName creation.name)
        (Index.totalSize creation.capacity creation.layout.size))
      (.indexSlotsNew creation.ready.nextObject creation.capacity creation.layout.size) =
        ((), creation.index) := by
    simp only [Platform.exec, Kernel.withBlock_object, Kernel.withBlock_setMemory]
    rfl
  have written : ∀ size, creation.Guarantee
      (creation.ready.zeroBlock creation.platform (indexName creation.name) size)
      creation.index := by
    intro size
    refine (early_indexZero creation size).step (early_index creation) (Nat.le_refl _) ?_
    intro _ headed
    exact (sameHeader _).trans ((sameHeader _).symm.trans headed)
  refine .seq (fun _ => rfl) (Block.new_sat free ?created ?changed ?removed ?ok ?error)
  case created =>
    refine (early_ready creation).step (early_indexZero creation 0) (Nat.le_succ _) ?_
    exact fun _ headed => (sameHeader _).trans headed
  case changed =>
    intro size later
    refine (early_indexZero creation size).step (early_indexZero creation later) (Nat.le_refl _) ?_
    exact fun _ headed => (sameHeader _).trans ((sameHeader _).symm.trans headed)
  case removed => exact fun size => (early_indexZero creation size).drop_name _
  case error =>
    rintro e t restored u rfl
    exact error e t ((early_ready creation).restored restored)
  case ok =>
    refine .ofExcept (checkAligned_page _) (.ofExcept (checkAligned_nodes _ _)
      (.reply slots (written _) (.seq (fun _ => rfl) (index_sat creation ?_ ?_))))
    · exact .pure fun t same => same ▸ ok
    · rintro e t restored u rfl
      exact error e t ((early_index creation).restored restored)

/-- The creating process keeps its promise with every call. -/
theorem create_sat (creation : Creation K B) :
    creation.create.program.Sat (creation.platform.exec noFault) Eq creation.Guarantee
      creation.before creation.Created := by
  have header : creation.platform.exec noFault
      (creation.before.zeroBlock creation.platform creation.name
        (Table.calculateTotalSize creation.capacity creation.recordSize))
      (.writeHeader creation.before.nextObject (.new creation.capacity)) =
        ((), creation.headed) := by
    simp only [Platform.exec, Kernel.withBlock_object, Kernel.withBlock_setMemory]
    rfl
  have slots : creation.platform.exec noFault creation.headed
      (.slotsNew creation.before.nextObject creation.capacity creation.recordSize) =
        ((), creation.data) := by
    simp only [Platform.exec, Creation.headed, Kernel.withBlock_object,
      Kernel.withBlock_setMemory]
    rfl
  have headed : ∀ object, creation.header (creation.before.withBlock creation.platform
      creation.name object) = object.memory.header := by
    intro object
    simp only [Creation.header, Kernel.withBlock_object]
  refine .seq (fun _ => rfl) (Block.new_sat (creation.absent .block) ?created ?changed ?removed
    ?ok ?error)
  case created =>
    exact early_before.step (early_zero creation 0) (Nat.le_succ _)
      (fun begun => absurd begun (Nat.lt_irrefl _))
  case changed =>
    intro size later
    refine (early_zero creation size).step (early_zero creation later) (Nat.le_refl _) ?_
    intro _ same
    simpa only [headed] using same
  case removed => exact fun size => (early_zero creation size).drop_name _
  case error =>
    rintro e t restored u rfl
    exact .error (early_before.restored restored)
  case ok =>
    have wrote : creation.Guarantee (creation.before.zeroBlock creation.platform creation.name
        (Table.calculateTotalSize creation.capacity creation.recordSize)) creation.headed :=
      (early_zero creation _).step (early_headed creation) (Nat.le_refl _)
        (fun _ _ => headed _)
    have filled : creation.Guarantee creation.headed creation.data :=
      (early_headed creation).step (early_data creation) (Nat.le_refl _) (fun _ _ => headed _)
    refine .ofExcept (checkAligned_page _) (.reply header wrote (.ofExcept (checkAligned_page _)
      (.ofExcept (checkAligned_slots _) (.reply slots filled (.seq (fun _ => rfl) ?_)))))
    have early : ∀ size position,
        creation.Early (SemaphoreSet.resetSet creation.data creation.key size position) :=
      early_resetSet creation
    refine SemaphoreSet.create_sat (creation.absent .semaphores) ?_ ?_ ?_ ?_ ?_ ?_ ?_
    · exact (early_data creation).step (early_data creation) (Nat.le_refl _) (fun _ => id)
    · exact fun size _ => (early_data creation).step (early size 0) (Nat.le_refl _) (fun _ => id)
    · exact fun size _ position _ =>
        (early size position).step (early size (position + 1)) (Nat.le_refl _) (fun _ => id)
    · exact fun size _ _ => (early size size).step (early size size) (Nat.le_refl _) (fun _ => id)
    · exact fun size _ _ => (early size size).drop_set _
    · refine .seq (fun _ => rfl)
        (new_sat creation (.pure fun t same => same ▸ ⟨fun _ => rfl, ?_⟩) ?_)
      · intro table made
        exact (Except.ok.inj made).symm
      · rintro e t absent u rfl
        exact .error absent
    · rintro e t restored u rfl
      exact .error ((early_data creation).restored restored)

/-! ### The opening processes -/

/-- What an opening process ends with. -/
structure Opened (creation : Creation K B) (opened : SharedTable K B) (t : Kernel B) : Prop where
  published : creation.Published t
  block : opened.block.fd = creation.before.nextObject
  semaphores : opened.semaphores = .ofRecords creation.before.nextSet creation.capacity
  indexBlock : opened.primaryKeys.block.fd = creation.before.nextObject + 1
  index : opened.primaryKeys.index =
    .handle creation.layout creation.hasher creation.capacity
  indexSemaphores : opened.primaryKeys.semaphores = .ofRecords (creation.before.nextSet + 1) 0

/-- What the opening of its index ends with. -/
structure IndexOpened (creation : Creation K B) (opened : SharedIndex K B) (t : Kernel B) :
    Prop where
  published : creation.Published t
  block : opened.block.fd = creation.before.nextObject + 1
  index : opened.index = .handle creation.layout creation.hasher creation.capacity
  semaphores : opened.semaphores = .ofRecords (creation.before.nextSet + 1) 0

theorem Published.indexSemaphores (published : creation.Published s) {semId : Nat}
    (keyed : s.keys creation.indexKey = some semId) : semId = creation.before.nextSet + 1 := by
  have self : ∀ value, (creation.published value).keys creation.indexKey =
      some (creation.before.nextSet + 1) := fun value => Function.update_self ..
  rcases published with rfl | rfl
  · exact Option.some.inj (keyed.symm.trans (self 0))
  · exact Option.some.inj (keyed.symm.trans (self 1))

/-- The index semaphores are the last thing looked for. -/
theorem openIndex_sat (creation : Creation K B) (inv : creation.Inv s) :
    (SharedIndex.openExisting creation.platform creation.layout creation.hasher creation.name
      creation.capacity).program.Sat (creation.platform.exec noFault) creation.Evolves Eq s
      (fun result t => creation.Evolves s t ∧
        ∀ opened, result = .ok opened → creation.IndexOpened opened t) := by
  refine .seq Evolves.refl ((Block.openExisting_sat _ _ Evolves.trans).mono ?_)
  intro result t seen
  cases result with
  | error e =>
    intro u more
    exact ⟨seen.later.trans more, fun opened impossible => by simp at impossible⟩
  | ok block =>
    have page := seen.page block rfl
    obtain ⟨u, reached, named, -⟩ := seen.named block rfl
    have fd := (reached.inv inv).indexBlock _ named
    have aligned : checkAligned block.ptr headerAlignment = .ok () := page ▸ checkAligned_page _
    have slotsAligned : checkAligned (block.ptr + Index.totalBucketsSize creation.capacity)
        headerAlignment = .ok () := page ▸ checkAligned_nodes _ _
    refine .ofExcept aligned (.ofExcept slotsAligned (.seq Evolves.refl
      ((SemaphoreSet.openExisting_sat _ _ _ Evolves.trans).mono ?_)))
    intro found v looked
    have later := seen.later.trans looked.later
    cases found with
    | error e =>
      intro w more
      exact ⟨later.trans more, fun opened impossible => by simp at impossible⟩
    | ok semaphores =>
      obtain ⟨w, before, keyed, after⟩ := looked.keyed semaphores rfl
      have invW := (seen.later.trans before).inv inv
      have published := invW.published (Option.ne_none_iff_exists'.mpr ⟨_, keyed⟩)
      have semId := published.indexSemaphores keyed
      refine .pure fun last more => ⟨later.trans more, ?_⟩
      rintro opened made
      obtain rfl := Except.ok.inj made
      refine ⟨(after.trans more).published published, fd, rfl, ?_⟩
      rw [← semId]
      exact looked.fields semaphores rfl

/-- An opening process changes nothing, and what it ends with is complete. -/
theorem open_sat (creation : Creation K B) (inv : creation.Inv s) :
    creation.openExisting.program.Sat (creation.platform.exec noFault) creation.Evolves Eq s
      (fun result t => ∀ opened, result = .ok opened → creation.Opened opened t) := by
  refine .seq Evolves.refl ((Block.openExisting_sat _ _ Evolves.trans).mono ?_)
  intro result t seen
  cases result with
  | error e => exact fun u _ opened impossible => by simp at impossible
  | ok block =>
    have page := seen.page block rfl
    obtain ⟨u, reached, named, since⟩ := seen.named block rfl
    have fd := (reached.inv inv).block _ named
    have begun : creation.before.nextObject < t.nextObject :=
      fd ▸ (u.allocated named).trans_le since.begun
    have aligned : checkAligned block.ptr headerAlignment = .ok () := page ▸ checkAligned_page _
    have slotsAligned : checkAligned (Header.data block.ptr tableHeaderSize) headerAlignment =
        .ok () := page ▸ checkAligned_slots _
    refine .ofExcept aligned (.ofExcept aligned (.ask (exec_reads trivial) (fun _ => rfl) ?_))
    intro v checked
    have invV := (seen.later.trans checked).inv inv
    cases valid : (v.objects block.fd).memory.header.isValid with
    | false =>
      have reply : (creation.platform.exec noFault v (.isValid block.fd)).1 = false := valid
      rw [reply]
      exact fun u _ opened impossible => by cases impossible
    | true =>
      have reply : (creation.platform.exec noFault v (.isValid block.fd)).1 = true := valid
      rw [reply]
      rw [fd] at valid
      have headed := invV.header (begun.trans_le checked.begun) valid
      have headedAt : ∀ w, creation.Evolves v w →
          (w.objects block.fd).memory.header.capacity = creation.capacity := by
        intro w more
        rw [fd]
        exact congrArg TableHeader.capacity (more.headed (begun.trans_le checked.begun) headed)
      refine .ofExcept slotsAligned (.ask (exec_reads trivial) (fun _ => rfl) ?_)
      intro w read
      have capacity : (creation.platform.exec noFault w (.readCapacity block.fd)).1 =
          creation.capacity := headedAt w read
      rw [capacity]
      refine .seq Evolves.refl ((SemaphoreSet.openExisting_sat _ _ _ Evolves.trans).mono ?_)
      intro found x looked
      cases found with
      | error e => exact fun u _ opened impossible => by cases impossible
      | ok semaphores =>
        obtain ⟨y, before, keyed, -⟩ := looked.keyed semaphores rfl
        have semId := ((read.trans before).inv invV).semaphores _ keyed
        refine .ask (exec_reads trivial) (fun _ => rfl) ?_
        intro z again
        have later := (read.trans looked.later).trans again
        have capacity : (creation.platform.exec noFault z (.readCapacity block.fd)).1 =
            creation.capacity := headedAt z later
        rw [capacity]
        refine .seq Evolves.refl ((openIndex_sat creation (later.inv invV)).mono ?_)
        rintro opened last ⟨-, index⟩
        cases opened with
        | error e => exact fun u _ opened impossible => by cases impossible
        | ok index_opened =>
          have known := index index_opened rfl
          refine .pure fun final more table made => ?_
          obtain rfl := Except.ok.inj made
          refine ⟨more.published known.published, fd, ?_, known.block, known.index,
            known.semaphores⟩
          rw [← semId]
          exact looked.fields semaphores rfl

end Creation

/-- The resources behind a handle hold a new table of `capacity` records. -/
structure SharedTable.Initialised (platform : Platform B) (layout : NodeLayout K B)
    (hasher : K → Nat) (name : String) (capacity recordSize : Nat) (opened : SharedTable K B)
    (kernel : Kernel B) : Prop where
  current : opened.Current name kernel
  header : (kernel.objects opened.block.fd).memory.header = .new capacity
  slots : (kernel.objects opened.block.fd).memory.slots =
    .new platform.zeroSlot capacity recordSize
  semaphores : ∃ set, kernel.sets opened.semaphores.semId = some set ∧
    set.size = opened.semaphores.stripes ∧ ∀ semNum < set.size, set.values semNum = 1
  index : (kernel.objects opened.primaryKeys.block.fd).memory.index =
    (Index.handle layout hasher capacity).newBlock capacity platform.zeroNode
  indexSemaphores : ∃ set, kernel.sets opened.primaryKeys.semaphores.semId = some set ∧
    set.size = opened.primaryKeys.semaphores.stripes

/-- The index semaphore that lockers of the index wait for has this value. -/
def SharedTable.indexValue (opened : SharedTable K B) (kernel : Kernel B) : Option Nat :=
  (kernel.sets opened.primaryKeys.semaphores.semId).map
    (fun set => set.values opened.primaryKeys.semaphores.tableNumber)

namespace Creation
variable {creation : Creation K B} {opened : SharedTable K B} {kernel : Kernel B}

section Contents
variable (creation : Creation K B) (value : Nat)

theorem published_block :
    (creation.published value).names creation.name = some creation.before.nextObject :=
  (Function.update_of_ne (indexName_ne creation.name).symm ..).trans
    (SharedTable.withSemaphores_names ..)

theorem published_indexBlock :
    (creation.published value).names (indexName creation.name) =
      some (creation.before.nextObject + 1) :=
  Function.update_self ..

theorem published_key :
    (creation.published value).keys creation.key = some creation.before.nextSet :=
  (Function.update_of_ne creation.distinct.symm ..).trans
    (SharedTable.withSemaphores_keys_self ..)

theorem published_indexKey :
    (creation.published value).keys creation.indexKey = some (creation.before.nextSet + 1) :=
  Function.update_self ..

theorem published_data :
    (creation.published value).objects creation.before.nextObject =
      ⟨Table.calculateTotalSize creation.capacity creation.recordSize,
        creation.platform.dataMemory creation.capacity creation.recordSize⟩ := by
  have apart : creation.before.nextObject ≠ creation.before.nextObject + 1 := by omega
  exact (Function.update_of_ne apart ..).trans ((Function.update_of_ne apart ..).trans
    (Kernel.withBlock_object ..))

theorem published_nodes :
    (creation.published value).objects (creation.before.nextObject + 1) =
      ⟨Index.totalSize creation.capacity creation.layout.size,
        creation.platform.indexMemory creation.capacity creation.layout.size⟩ :=
  Function.update_self ..

theorem published_semaphores :
    (creation.published value).sets creation.before.nextSet =
      some ⟨SemaphoreSet.stripesFor creation.capacity,
        SemaphoreSet.resetUpTo (SemaphoreSet.stripesFor creation.capacity)⟩ := by
  have apart : creation.before.nextSet ≠ creation.before.nextSet + 1 := by omega
  exact (Function.update_of_ne apart ..).trans (Function.update_self ..)

theorem published_indexSemaphores :
    (creation.published value).sets (creation.before.nextSet + 1) =
      some ⟨1, SemaphoreSet.resetUpTo value⟩ :=
  Function.update_self ..

end Contents

theorem Opened.initialised (complete : creation.Opened opened kernel) :
    opened.Initialised creation.platform creation.layout creation.hasher creation.name
      creation.capacity creation.recordSize kernel := by
  obtain ⟨value, rfl⟩ : ∃ value, kernel = creation.published value := by
    rcases complete.published with same | same
    · exact ⟨0, same⟩
    · exact ⟨1, same⟩
  refine ⟨fun r => ?_, ?_, ?_, ?_, ?_, ?_⟩
  · cases r with
    | block => exact (published_block creation value).trans (congrArg some complete.block.symm)
    | semaphores =>
      refine (published_key creation value).trans (congrArg some ?_)
      rw [SharedTable.resource, complete.semaphores]
      rfl
    | indexBlock =>
      exact (published_indexBlock creation value).trans (congrArg some complete.indexBlock.symm)
    | indexSemaphores =>
      refine (published_indexKey creation value).trans (congrArg some ?_)
      rw [SharedTable.resource, complete.indexSemaphores]
      rfl
  · rw [complete.block, published_data]
    rfl
  · rw [complete.block, published_data]
    rfl
  · refine ⟨⟨SemaphoreSet.stripesFor creation.capacity,
      SemaphoreSet.resetUpTo (SemaphoreSet.stripesFor creation.capacity)⟩, ?_, ?_,
      fun semNum inside => if_pos inside⟩
    · rw [complete.semaphores]
      exact published_semaphores creation value
    · rw [complete.semaphores]
      rfl
  · rw [complete.indexBlock, published_nodes]
    rfl
  · refine ⟨⟨1, SemaphoreSet.resetUpTo value⟩, ?_, ?_⟩
    · rw [complete.indexSemaphores]
      exact published_indexSemaphores creation value
    · rw [complete.indexSemaphores]
      rfl

theorem Opened.indexValue {value : Nat}
    (complete : creation.Opened opened (creation.published value)) :
    opened.indexValue (creation.published value) = some (SemaphoreSet.resetUpTo value 0) := by
  rw [SharedTable.indexValue, complete.indexSemaphores]
  exact congrArg (Option.map _) (published_indexSemaphores creation value)

theorem published_apart (creation : Creation K B) :
    creation.published 0 ≠ creation.published 1 := by
  intro same
  have sets : (creation.published 0).sets (creation.before.nextSet + 1) =
      (creation.published 1).sets (creation.before.nextSet + 1) := by rw [same]
  rw [published_indexSemaphores, published_indexSemaphores] at sets
  have values := congrArg SemSet.values (Option.some.inj sets)
  exact absurd (congrFun values 0) (by decide)

/-! ### All processes together -/

/-- The processes, each with what is left of its program. -/
abbrev Processes (ι K B : Type) : Type :=
  Config ι (Kernel B) (Program Action Action.Reply (Except InMemoryTableError (SharedTable K B)))

/-- The next call of a process. -/
abbrev next (creation : Creation K B) :
    Kernel B → Program Action Action.Reply (Except InMemoryTableError (SharedTable K B)) →
      Option (Action × Kernel B ×
        Program Action Action.Reply (Except InMemoryTableError (SharedTable K B))) :=
  advance (creation.platform.exec noFault)

section Together
variable {ι : Type} [DecidableEq ι]

/-- One process creates the table, all others open it. -/
def start (creation : Creation K B) (creator : ι) : Processes ι K B where
  shared := creation.before
  client := Function.update (fun _ => creation.openExisting.program) creator
    creation.create.program

/-- Lockers of the index wait, and nothing but the next call of the creating
process lets them go on. -/
structure Waiting (creation : Creation K B) (creator : ι) (opened : SharedTable K B)
    (last : Processes ι K B) : Prop where
  blocked : ∃ set, last.shared.sets opened.primaryKeys.semaphores.semId = some set ∧
    Semaphores.lock set.size set.values opened.primaryKeys.semaphores.tableNumber = .ok none
  others : ∀ label after, Step (Computes creation.next) last label after → label.1 ≠ creator →
    after.shared = last.shared
  released : ∃ action shared own,
    creation.next last.shared (last.client creator) = some (action, shared, own) ∧
      opened.indexValue shared = some 1

def rely (creation : Creation K B) (creator c : ι) : Kernel B → Kernel B → Prop :=
  if c = creator then Eq else creation.Evolves

def guarantee (creation : Creation K B) (creator c : ι) : Kernel B → Kernel B → Prop :=
  if c = creator then creation.Guarantee else Eq

def post (creation : Creation K B) (creator c : ι)
    (result : Except InMemoryTableError (SharedTable K B)) (t : Kernel B) : Prop :=
  if c = creator then creation.Created result t
  else ∀ opened, result = .ok opened → creation.Opened opened t

theorem rely_refl (creator c : ι) (s : Kernel B) : creation.rely creator c s s := by
  rw [rely]
  split
  · rfl
  · exact .refl s

theorem rely_trans (creator c : ι) {s t u : Kernel B} (first : creation.rely creator c s t)
    (second : creation.rely creator c t u) : creation.rely creator c s u := by
  by_cases same : c = creator
  · rw [rely, if_pos same] at *
    exact first.trans second
  · rw [rely, if_neg same] at *
    exact Evolves.trans first second

/-- What a process does, all others tolerate. -/
theorem guarantee_rely {creator c d : ι} (apart : c ≠ d) (s t : Kernel B)
    (step : creation.guarantee creator c s t) : creation.rely creator d s t := by
  rw [guarantee] at step
  split at step
  · rename_i same
    subst same
    rw [rely, if_neg (Ne.symm apart)]
    exact step.evolves
  · subst step
    exact rely_refl ..

theorem start_sat (creation : Creation K B) (creator c : ι) :
    ((creation.start creator).client c).Sat (creation.platform.exec noFault)
      (creation.rely creator c) (creation.guarantee creator c) (creation.start creator).shared
      (creation.post creator c) := by
  by_cases same : c = creator
  · subst same
    simp only [start, Function.update_self, rely, guarantee, if_true]
    exact (create_sat creation).mono fun result t created => by rwa [post, if_pos rfl]
  · simp only [start, Function.update_of_ne same, rely, guarantee, if_neg same]
    exact (open_sat creation early_before.inv).mono fun result t opened => by rwa [post, if_neg same]

variable {creator : ι} {trace : List (ι × Action)} {last : Processes ι K B}

theorem run_sat (run : Run (Step (Computes creation.next)) (creation.start creator) trace last)
    (c : ι) :
    (last.client c).Sat (creation.platform.exec noFault) (creation.rely creator c)
      (creation.guarantee creator c) last.shared (creation.post creator c) :=
  Sat.parallel (rely_trans creator) (rely_refl creator)
    (fun _ _ apart s t => guarantee_rely apart s t) (start_sat creation creator) run c

/-- An opening process changes nothing. -/
theorem opener_silent
    (run : Run (Step (Computes creation.next)) (creation.start creator) trace last)
    {label : ι × Action} {after : Processes ι K B}
    (stepped : Step (Computes creation.next) last label after) (other : label.1 ≠ creator) :
    after.shared = last.shared := by
  cases stepped with
  | @move c action shared own moved =>
    have running := run_sat run c
    generalize last.client c = before at moved running
    cases before with
    | ret value => simp [Computes, next, advance] at moved
    | call asked remaining =>
      simp only [Computes, next, advance, Option.some.injEq, Prod.mk.injEq] at moved
      obtain ⟨-, rfl, -⟩ := moved
      have kept := (running _ (rely_refl ..)).1
      rw [guarantee, if_neg other] at kept
      exact kept.symm

/-- The semaphore of the index is 0 only until the next call of the creating process. -/
theorem creator_releases
    (run : Run (Step (Computes creation.next)) (creation.start creator) trace last)
    (created : last.shared = creation.published 0) :
    ∃ action own, creation.next last.shared (last.client creator) =
      some (action, creation.published 1, own) := by
  have running := run_sat run creator
  rw [rely, guarantee, if_pos rfl, if_pos rfl] at running
  generalize last.client creator = program at running
  cases program with
  | ret result =>
    have ended : creation.Created result last.shared := by
      simpa only [post, if_true] using running _ rfl
    rw [created] at ended
    exact absurd (ended.released (published_keys 0)) (published_apart creation)
  | call action remaining =>
    have step := (running _ rfl).1
    refine ⟨action, remaining (creation.platform.exec noFault last.shared action).1, ?_⟩
    rw [← step.released created]
    rfl

/-- In every interleaving an opened table is complete, but for the semaphore of
its index, which the creating process may still have to release. -/
theorem opened_tables_complete (creation : Creation K B) (creator : ι)
    {trace : List (ι × Action)} {last : Processes ι K B}
    (run : Run (Step (Computes creation.next)) (creation.start creator) trace last) {c : ι}
    (other : c ≠ creator) {opened : SharedTable K B}
    (returned : last.client c = .ret (.ok opened)) :
    opened.Initialised creation.platform creation.layout creation.hasher creation.name
      creation.capacity creation.recordSize last.shared ∧
    opened.semaphores = .ofRecords opened.semaphores.semId creation.capacity ∧
    opened.primaryKeys.index =
      .handle creation.layout creation.hasher creation.capacity ∧
    opened.primaryKeys.semaphores = .ofRecords opened.primaryKeys.semaphores.semId 0 ∧
    (∀ created, last.client creator = .ret (.ok created) →
      opened.semaphores = created.semaphores ∧
      opened.primaryKeys.index = created.primaryKeys.index ∧
      opened.primaryKeys.semaphores = created.primaryKeys.semaphores) ∧
    (opened.indexValue last.shared = some 1 ∨ creation.Waiting creator opened last) := by
  have complete : creation.Opened opened last.shared := by
    have running := run_sat run c
    rw [returned] at running
    have ended := running _ (rely_refl ..)
    rw [post, if_neg other] at ended
    exact ended opened rfl
  have semaphores : opened.semaphores = .ofRecords opened.semaphores.semId creation.capacity := by
    rw [complete.semaphores]
    rfl
  have indexSemaphores :
      opened.primaryKeys.semaphores = .ofRecords opened.primaryKeys.semaphores.semId 0 := by
    rw [complete.indexSemaphores]
    rfl
  refine ⟨complete.initialised, semaphores, complete.index, indexSemaphores, ?_, ?_⟩
  · intro created finished
    have running := run_sat run creator
    rw [finished] at running
    have ended := running _ (rely_refl ..)
    rw [post, if_pos rfl] at ended
    rw [ended.handle created rfl]
    exact ⟨complete.semaphores, complete.index, complete.indexSemaphores⟩
  · rcases complete.published with zero | one
    · obtain ⟨action, own, moves⟩ := creator_releases run zero
      refine .inr ⟨⟨⟨1, SemaphoreSet.resetUpTo 0⟩, ?_, ?_⟩, ?_, ?_⟩
      · rw [zero, complete.indexSemaphores]
        exact published_indexSemaphores creation 0
      · rw [complete.indexSemaphores]
        rfl
      · exact fun label after stepped other => opener_silent run stepped other
      · refine ⟨action, creation.published 1, own, moves, ?_⟩
        have later : creation.Opened opened (creation.published 1) :=
          { complete with published := .inr rfl }
        exact later.indexValue
    · left
      rw [one] at complete ⊢
      exact complete.indexValue

end Together

/-- The creation of a table for one record on an empty system. -/
def sample : Creation UInt8 (Node UInt8) where
  platform := .sample
  layout := .cell UInt8
  hasher := UInt8.toNat
  name := "t"
  capacity := 1
  recordSize := 1
  before := .empty .sample
  absent r := by cases r <;> rfl
  distinct := by decide +kernel

/-- The other process opens the table just before the creator releases the
semaphore of the index. -/
theorem opened_tables_complete_sample :
    ∃ trace last opened,
      Run (Step (Computes sample.next)) (sample.start true) trace last ∧
      last.client false = .ret (.ok opened) ∧
      opened.Initialised sample.platform sample.layout sample.hasher sample.name
        sample.capacity sample.recordSize last.shared ∧
      sample.Waiting true opened last := by
  obtain ⟨trace, last, checked, run⟩ := exists_run sample.next (fun _ _ => true)
    (sample.start true) (List.replicate 15 true ++ List.replicate 11 false)
    (fun _ last =>
      match last.client false with
      | .ret (.ok opened) => opened.indexValue last.shared = some 0
      | .ret (.error _) => false
      | .call _ _ => false)
    (by decide +kernel)
  have run := run.unguarded
  cases returned : last.client false with
  | call action remaining => simp [returned] at checked
  | ret result =>
    cases result with
    | error e => simp [returned] at checked
    | ok opened =>
      obtain ⟨complete, -, -, -, -, index⟩ :=
        opened_tables_complete sample true run (by decide) returned
      refine ⟨trace, last, opened, run, returned, complete, index.resolve_left fun one => ?_⟩
      simp [returned, one] at checked

end Creation
end InMemoryTable
