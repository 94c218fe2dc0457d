import InMemoryTable.Library.RollingHash
import InMemoryTable.Resources

/-! The System V keys made of table names. A key is the magnitude of a
polynomial of the bytes of the name, modulo 2^32: when two names share a key, and
when the magnitude leaves the range of `i32`. -/
namespace InMemoryTable
open Program

namespace SemaphoreSet

/-- The value of `hash` behind the loop of `generate_sem_key`. -/
def semKeyHash (name : String) : Int32 :=
  name.toUTF8.toList.foldl (fun hash byte => hash * 31 + Int32.ofNat byte.toNat) (0x1234 : Int32)

theorem generateSemKey_eq (name : String) :
    generateSemKey name =
      if (semKeyHash name).abs = 0 then 0x1234 else (semKeyHash name).abs := rfl

/-- `i32::abs` of a debug build, which panics where the magnitude overflows. -/
def debugAbs (hash : Int32) : Option Int32 :=
  if hash = Int32.minValue then none else some hash.abs

/-- `generate_sem_key` of a debug build. -/
def generateSemKeyDebug (name : String) : Option Int32 :=
  (debugAbs (semKeyHash name)).map fun key => if key = 0 then 0x1234 else key

end SemaphoreSet

/-- The bytes of a name as the digits of a number to base 31, behind the seed. -/
def namePolynomial (name : String) : Nat :=
  polynomialHash 31 0x1234 (name.toUTF8.toList.map UInt8.toNat)

theorem namePolynomial_append (name more : String) :
    namePolynomial (name ++ more) =
      polynomialHash 31 (namePolynomial name) (more.toUTF8.toList.map UInt8.toNat) := by
  simp only [namePolynomial, String.toUTF8_eq_toByteArray, String.toByteArray_append,
    ByteArray.toList_append, List.map_append, polynomialHash.append]

/-- The name of the index is three bytes longer. -/
theorem namePolynomial_indexName (name : String) :
    namePolynomial (indexName name) = namePolynomial name * 29791 + 94874 := by
  have suffix : "_pk".toUTF8.toList.map UInt8.toNat = [] ++ [95] ++ [112] ++ [107] := by
    decide +kernel
  rw [indexName, namePolynomial_append, suffix]
  simp only [polynomialHash.concat, polynomialHash.nil]
  omega

namespace SemaphoreSet

theorem semKeyHash_toBitVec (name : String) :
    (semKeyHash name).toBitVec = BitVec.ofNat 32 (namePolynomial name) := by
  rw [namePolynomial, ← polynomialHash.foldl_word, List.foldl_map, semKeyHash]
  have step (hash : Int32) (byte : UInt8) : (hash * 31 + Int32.ofNat byte.toNat).toBitVec =
      hash.toBitVec * BitVec.ofNat 32 31 + BitVec.ofNat 32 byte.toNat := rfl
  exact (List.foldl_hom Int32.toBitVec (fun hash byte => (step hash byte).symm)).symm

/-- What the loop leaves, without a sign. -/
def residue (polynomial : Nat) : Nat := polynomial % 4294967296

/-- The key as a number: the distance of the residue to zero, and the seed for
zero itself. -/
def keyNumber (polynomial : Nat) : Nat :=
  if residue polynomial = 0 then 0x1234
  else min (residue polynomial) (4294967296 - residue polynomial)

theorem semKeyHash_abs (name : String) :
    (semKeyHash name).abs.toBitVec.toNat =
      min (residue (namePolynomial name)) (4294967296 - residue (namePolynomial name)) := by
  rw [Int32.toBitVec_abs, BitVec.toNat_abs_eq_min, semKeyHash_toBitVec, BitVec.toNat_ofNat]
  rfl

theorem generateSemKey_toNat (name : String) :
    (generateSemKey name).toBitVec.toNat = keyNumber (namePolynomial name) := by
  have magnitude := semKeyHash_abs name
  have bound : residue (namePolynomial name) < 4294967296 := Nat.mod_lt _ (by decide)
  rw [generateSemKey_eq, keyNumber]
  by_cases zero : (semKeyHash name).abs = 0
  · rw [zero] at magnitude
    have none_left : min (residue (namePolynomial name))
        (4294967296 - residue (namePolynomial name)) = 0 := magnitude.symm
    rw [if_pos zero, if_pos (by omega)]
    rfl
  · have some_left : residue (namePolynomial name) ≠ 0 := by
      intro none_left
      apply zero
      apply Int32.toBitVec_inj.mp
      apply BitVec.eq_of_toNat_eq
      rw [magnitude, none_left]
      rfl
    rw [if_neg zero, if_neg some_left, magnitude]

/-- Two names have one key iff their polynomials have one key number. -/
theorem generateSemKey_eq_iff (name other : String) :
    generateSemKey name = generateSemKey other ↔
      keyNumber (namePolynomial name) = keyNumber (namePolynomial other) := by
  rw [← generateSemKey_toNat, ← generateSemKey_toNat, BitVec.toNat_inj, Int32.toBitVec_inj]

/-! ### The range of the keys -/

theorem semKeyHash_eq_minValue (name : String) :
    semKeyHash name = Int32.minValue ↔ residue (namePolynomial name) = 2147483648 := by
  rw [← Int32.toBitVec_inj, ← BitVec.toNat_inj, semKeyHash_toBitVec, BitVec.toNat_ofNat]
  exact Iff.rfl

theorem generateSemKeyDebug_eq (name : String) :
    generateSemKeyDebug name =
      if semKeyHash name = Int32.minValue then none else some (generateSemKey name) := by
  rw [generateSemKeyDebug, debugAbs]
  split
  · rfl
  · rw [generateSemKey_eq]
    rfl

/-- A key that is not the least number has its number as its value. -/
theorem generateSemKey_toInt {name : String}
    (regular : residue (namePolynomial name) ≠ 2147483648) :
    (generateSemKey name).toInt = keyNumber (namePolynomial name) := by
  have number := generateSemKey_toNat name
  have bound : residue (namePolynomial name) < 4294967296 := Nat.mod_lt _ (by decide)
  rw [← Int32.toInt_toBitVec, BitVec.toInt_eq_toNat_cond, number, keyNumber]
  split <;> split <;> omega

theorem keyNumber_bounds {p : Nat} (regular : p % 4294967296 ≠ 2147483648) :
    1 ≤ keyNumber p ∧ keyNumber p ≤ 2147483647 := by
  unfold keyNumber residue
  split <;> omega

theorem generateSemKey_minValue {name : String} (least : semKeyHash name = Int32.minValue) :
    generateSemKey name = Int32.minValue := by
  rw [generateSemKey_eq, least]
  decide

/-- `hash.abs()` neither panics nor overflows, and the key is a positive `i32`,
for all names but those whose polynomial is 2^31 modulo 2^32. -/
theorem generateSemKey_positive_iff (name : String) :
    (semKeyHash name ≠ Int32.minValue ∧
      generateSemKeyDebug name = some (generateSemKey name) ∧
      (1 ≤ (generateSemKey name).toInt ∧ (generateSemKey name).toInt ≤ Int32.maxValue.toInt)) ↔
    namePolynomial name % 4294967296 ≠ 2147483648 := by
  constructor
  · rintro ⟨regular, -, -⟩ least
    exact regular ((semKeyHash_eq_minValue name).mpr least)
  · intro regular
    have hash : semKeyHash name ≠ Int32.minValue :=
      fun least => regular ((semKeyHash_eq_minValue name).mp least)
    have value := generateSemKey_toInt regular
    have greatest : Int32.maxValue.toInt = 2147483647 := rfl
    obtain ⟨positive, small⟩ := keyNumber_bounds regular
    refine ⟨hash, by rw [generateSemKeyDebug_eq, if_neg hash], ?_, ?_⟩
    · rw [value]
      exact_mod_cast positive
    · rw [value, greatest]
      exact_mod_cast small

/-- The key of the name `sujjnqy` is the least number. -/
theorem generateSemKey_negative :
    semKeyHash "sujjnqy" = Int32.minValue ∧ generateSemKeyDebug "sujjnqy" = none ∧
      generateSemKey "sujjnqy" = Int32.minValue ∧
      ¬ (∀ name, semKeyHash name ≠ Int32.minValue ∧ 1 ≤ (generateSemKey name).toInt) := by
  have least : semKeyHash "sujjnqy" = Int32.minValue := by decide +kernel
  refine ⟨least, ?_, generateSemKey_minValue least, fun positive => (positive _).1 least⟩
  rw [generateSemKeyDebug_eq, if_pos least]

/-! ### Names that share a key -/

/-- The number of an index name, from that of the name. -/
def indexPolynomial (p : Nat) : Nat := p * 29791 + 94874

/-- A number whose residue is zero is taken for the seed. -/
def seedForZero (p : Nat) : Nat := if p % 4294967296 = 0 then 0x1234 else p

/-- Equal up to the sign modulo 2^32. -/
def Collide (p q : Nat) : Prop :=
  seedForZero p % 4294967296 = seedForZero q % 4294967296 ∨
    (seedForZero p + seedForZero q) % 4294967296 = 0

theorem seedForZero_residue (p : Nat) : seedForZero p % 4294967296 ≠ 0 := by
  unfold seedForZero
  split <;> omega

theorem keyNumber_eq (p : Nat) :
    keyNumber p =
      min (seedForZero p % 4294967296) (4294967296 - seedForZero p % 4294967296) := by
  unfold keyNumber seedForZero residue
  split
  · rfl
  · rfl

theorem keyNumber_eq_iff (p q : Nat) : keyNumber p = keyNumber q ↔ Collide p q := by
  rw [keyNumber_eq, keyNumber_eq, Collide,
    Residue.magnitude_eq_iff (Nat.mod_lt _ (by decide)) (Nat.mod_lt _ (by decide)),
    Residue.add_eq_zero_iff (by decide) (seedForZero_residue p)]

section IndexPolynomial
variable (p : Nat)

/-- The residue is kept in one class modulo 2^31, the solution of
`14895 * x + 47437 = 0`. -/
theorem indexPolynomial_same :
    indexPolynomial p % 4294967296 = p % 4294967296 ↔ p % 2147483648 = 1057377981 := by
  have doubled : indexPolynomial p = p + 2 * (14895 * p + 47437) := by
    unfold indexPolynomial
    omega
  have modulus : 4294967296 = 2 * 2147483648 := by decide
  have same : p + 2 * (14895 * p + 47437) ≡ p [MOD 2 * 2147483648] ↔
      2 * 2147483648 ∣ 2 * (14895 * p + 47437) := Nat.add_modEq_left_iff
  rw [doubled, modulus]
  refine same.trans ?_
  rw [Nat.mul_dvd_mul_iff_left (by decide), Nat.dvd_iff_mod_eq_zero]
  exact Residue.linear_eq_zero_iff (by decide) (by decide) (by decide) p

/-- The residue is never negated: the sum is 2 modulo 4. -/
theorem indexPolynomial_opposite : (p + indexPolynomial p) % 4294967296 ≠ 0 := by
  intro zero
  have low : (p + indexPolynomial p) % 4294967296 % 4 = (p + indexPolynomial p) % 4 :=
    Nat.mod_mod_of_dvd _ (by decide)
  rw [zero] at low
  unfold indexPolynomial at low
  omega

theorem indexPolynomial_of_zero (zero : p % 4294967296 = 0) :
    indexPolynomial p % 4294967296 = 94874 := by
  rw [indexPolynomial, Nat.add_mod, Nat.mul_mod, zero]

/-- A residue that becomes zero is neither the seed nor its opposite. -/
theorem of_indexPolynomial_zero (zero : indexPolynomial p % 4294967296 = 0) :
    p % 4294967296 ≠ 0x1234 ∧ (p + 0x1234) % 4294967296 ≠ 0 := by
  rw [indexPolynomial] at zero
  constructor
  · intro seed
    rw [Nat.add_mod, Nat.mul_mod, seed] at zero
    exact absurd zero (by decide)
  · intro opposite
    have scaled : (p * 29791 + 0x1234 * 29791) % 4294967296 = 0 := by
      rw [← Nat.add_mul, Nat.mul_mod, opposite]
    have sum : 0x1234 * 29791 = 94874 + 138731186 := by decide
    rw [sum, ← Nat.add_assoc, Nat.add_mod, zero] at scaled
    exact absurd scaled (by decide)

theorem collide_indexPolynomial : Collide p (indexPolynomial p) ↔ p % 2147483648 = 1057377981 := by
  have same := indexPolynomial_same p
  have opposite := indexPolynomial_opposite p
  rw [Collide]
  by_cases zero : p % 4294967296 = 0
  · have index := indexPolynomial_of_zero p zero
    have left : seedForZero p = 0x1234 := if_pos zero
    have right : seedForZero (indexPolynomial p) = indexPolynomial p := if_neg (by omega)
    rw [left, right, Nat.add_mod, index, ← same, index, zero]
    decide
  have left : seedForZero p = p := if_neg zero
  by_cases index : indexPolynomial p % 4294967296 = 0
  · have right : seedForZero (indexPolynomial p) = 0x1234 := if_pos index
    obtain ⟨seed, negated⟩ := of_indexPolynomial_zero p index
    rw [left, right, ← same, index]
    refine iff_of_false ?_ (Ne.symm zero)
    rintro (equal | sum)
    · exact seed equal
    · exact negated sum
  · have right : seedForZero (indexPolynomial p) = indexPolynomial p := if_neg index
    rw [left, right, ← same, eq_comm]
    exact or_iff_left opposite

end IndexPolynomial

/-- The keys of a name and its index. -/
theorem generateSemKey_indexName (name : String) :
    generateSemKey name = generateSemKey (indexName name) ↔
      namePolynomial name % 2147483648 = 1057377981 := by
  rw [generateSemKey_eq_iff, namePolynomial_indexName, keyNumber_eq_iff]
  exact collide_indexPolynomial _

/-- The keys of the semaphore sets of two tables. -/
def keysOf (name other : String) : List Int32 :=
  [generateSemKey name, generateSemKey (indexName name), generateSemKey other,
    generateSemKey (indexName other)]

/-- What two names need for four different keys, in terms of their polynomials. -/
structure Apart (p q : Nat) : Prop where
  self : p % 2147483648 ≠ 1057377981
  other : q % 2147483648 ≠ 1057377981
  names : ¬ Collide p q
  nameIndex : ¬ Collide p (indexPolynomial q)
  indexName : ¬ Collide (indexPolynomial p) q
  indexes : ¬ Collide (indexPolynomial p) (indexPolynomial q)

theorem keysOf_nodup_iff (name other : String) :
    (keysOf name other).Nodup ↔ Apart (namePolynomial name) (namePolynomial other) := by
  have self := generateSemKey_indexName name
  have second := generateSemKey_indexName other
  have names := generateSemKey_eq_iff name other
  have nameIndex := generateSemKey_eq_iff name (InMemoryTable.indexName other)
  have indexName := generateSemKey_eq_iff (InMemoryTable.indexName name) other
  have indexes :=
    generateSemKey_eq_iff (InMemoryTable.indexName name) (InMemoryTable.indexName other)
  rw [keyNumber_eq_iff] at names
  rw [keyNumber_eq_iff, namePolynomial_indexName] at nameIndex indexName
  rw [keyNumber_eq_iff, namePolynomial_indexName, namePolynomial_indexName] at indexes
  simp only [keysOf, List.nodup_cons, List.mem_cons, List.not_mem_nil, or_false, not_or, self,
    second, names, nameIndex, indexName, indexes, not_false_eq_true, List.nodup_nil, and_true]
  constructor
  · rintro ⟨⟨a, b, c⟩, ⟨d, e⟩, f⟩
    exact ⟨a, f, b, c, d, e⟩
  · rintro ⟨a, f, b, c, d, e⟩
    exact ⟨⟨a, b, c⟩, ⟨d, e⟩, f⟩

/-! ### Creating the sets -/

section Sets
variable {B : Type} {platform : Platform B} {kernel : Kernel B} {name : String} {numRecords : Nat}

/-- Sets for any names and numbers of records, created one after the other. -/
def createEach (platform : Platform B) : List (String × Nat) → Call Unit
  | [] => pure ()
  | (name, numRecords) :: rest => do
    let _ ← create platform name numRecords
    createEach platform rest

/-- Only a key that is taken makes the creation of a set fail. -/
theorem create_cases (platform : Platform B) (kernel : Kernel B) (name : String)
    (few : stripesFor numRecords ≤ platform.semmsl) :
    (kernel.keys (generateSemKey name) = none ∧ ∃ semaphores set,
      kernel.runs platform (create platform name numRecords) =
        (.ok semaphores, kernel.createSet (generateSemKey name) set)) ∨
    (kernel.keys (generateSemKey name) ≠ none ∧ ∃ e after,
      kernel.runs platform (create platform name numRecords) = (.error e, after)) := by
  by_cases free : kernel.keys (generateSemKey name) = none
  · exact .inl ⟨free, _, _, create_ok free ⟨few, rfl, fun _ _ => rfl⟩⟩
  · have refused : ¬ (kernel.keys (generateSemKey name) = none ∧
        Granted platform noFault kernel.nextSet name numRecords) :=
      fun granted => free granted.1
    obtain ⟨e, after, failed, -⟩ := create_error kernel refused
    exact .inr ⟨free, e, after, failed⟩

/-- Sets of fitting sizes can all be created iff their keys are free and differ. -/
theorem createEach_ok_iff (sets : List (String × Nat))
    (few : ∀ set ∈ sets, stripesFor set.2 ≤ platform.semmsl) :
    (∃ after, kernel.runs platform (createEach platform sets) = (.ok (), after)) ↔
      (∀ set ∈ sets, kernel.keys (generateSemKey set.1) = none) ∧
      (sets.map (fun set => generateSemKey set.1)).Nodup := by
  induction sets generalizing kernel with
  | nil => exact iff_of_true ⟨kernel, rfl⟩ ⟨nofun, List.nodup_nil⟩
  | cons set rest ih =>
    obtain ⟨name, numRecords⟩ := set
    obtain ⟨small, few⟩ := List.forall_mem_cons.mp few
    rw [List.forall_mem_cons, List.map_cons, List.nodup_cons]
    obtain ⟨free, semaphores, created, ran⟩ | ⟨taken, e, after, failed⟩ :=
      create_cases platform kernel name small
    · have step : kernel.runs platform (createEach platform ((name, numRecords) :: rest)) =
          (kernel.createSet (generateSemKey name) created).runs platform
            (createEach platform rest) := by
        rw [Kernel.runs, createEach, run_ok _ ran]
        rfl
      have left : (∀ set ∈ rest, (kernel.createSet (generateSemKey name) created).keys
            (generateSemKey set.1) = none) ↔
          (∀ set ∈ rest, kernel.keys (generateSemKey set.1) = none) ∧
            generateSemKey name ∉ rest.map (fun set => generateSemKey set.1) := by
        simp only [List.mem_map, not_exists, not_and, ← forall_and]
        refine forall_congr' (fun set => forall_congr' (fun _ => ?_))
        by_cases same : generateSemKey set.1 = generateSemKey name
        · simp [same]
        · simp [same]
      rw [step, ih few, left]
      constructor
      · rintro ⟨⟨others, new⟩, nodup⟩
        exact ⟨⟨free, others⟩, new, nodup⟩
      · rintro ⟨⟨_, others⟩, new, nodup⟩
        exact ⟨⟨others, new⟩, nodup⟩
    · refine iff_of_false ?_ (fun all => taken all.1.1)
      rintro ⟨last, ran⟩
      rw [Kernel.runs, createEach, run_error _ failed] at ran
      cases ran

/-- The sets of two tables for so many records and of their indexes, in order. -/
def setsOf (name other : String) (capacity otherCapacity : Nat) : List (String × Nat) :=
  [(name, capacity), (indexName name, 0), (other, otherCapacity), (indexName other, 0)]

end Sets

end SemaphoreSet

open SemaphoreSet in
/-- The keys of a table differ outside of one residue class, those of two tables
as far as their polynomials are apart; where none of them is taken, exactly then
all four semaphore sets can be created. -/
theorem semaphore_keys_differ {B : Type} (platform : Platform B) :
    (∀ name, generateSemKey name ≠ generateSemKey (indexName name) ↔
      namePolynomial name % 2147483648 ≠ 1057377981) ∧
    (∀ name other, (keysOf name other).Nodup ↔
      Apart (namePolynomial name) (namePolynomial other)) ∧
    ∀ (kernel : Kernel B) (name other : String) (capacity otherCapacity : Nat),
      stripesFor capacity ≤ platform.semmsl → stripesFor otherCapacity ≤ platform.semmsl →
      (∀ key ∈ keysOf name other, kernel.keys key = none) →
      ((∃ after, kernel.runs platform
          (createEach platform (setsOf name other capacity otherCapacity)) = (.ok (), after)) ↔
        Apart (namePolynomial name) (namePolynomial other)) := by
  refine ⟨fun name => not_congr (generateSemKey_indexName name), keysOf_nodup_iff, ?_⟩
  intro kernel name other capacity otherCapacity few otherFew free
  have one : stripesFor 0 ≤ platform.semmsl := by
    rw [show stripesFor 0 = 1 by decide]
    exact Nat.le_trans (stripesFor_pos capacity) few
  have sizes : ∀ set ∈ setsOf name other capacity otherCapacity,
      stripesFor set.2 ≤ platform.semmsl := by
    simp [setsOf, few, otherFew, one]
  have keys : (setsOf name other capacity otherCapacity).map (fun set => generateSemKey set.1) =
      keysOf name other := by
    simp only [setsOf, keysOf, List.map_cons, List.map_nil]
  have unused : ∀ set ∈ setsOf name other capacity otherCapacity,
      kernel.keys (generateSemKey set.1) = none := by
    rw [← keys] at free
    exact List.forall_mem_map.mp free
  rw [createEach_ok_iff _ sizes, and_iff_right unused, keys, keysOf_nodup_iff]

open SemaphoreSet in
theorem semaphore_keys_differ_sample :
    (∃ after, (Kernel.empty Platform.sample).runs .sample
        (createEach .sample (setsOf "a" "b" 1 1)) = (.ok (), after)) ↔
      Apart (namePolynomial "a") (namePolynomial "b") :=
  (semaphore_keys_differ .sample).2.2 (.empty .sample) "a" "b" 1 1 (by decide) (by decide)
    (fun _ _ => rfl)

open SemaphoreSet in
/-- The name `viksacye` has the key of its own index, the names `Aa` and `BB`
have one key. -/
theorem semaphore_keys_clash :
    generateSemKey "viksacye" = generateSemKey (indexName "viksacye") ∧
    generateSemKey "Aa" = generateSemKey "BB" ∧
    ¬ (∀ name, generateSemKey name ≠ generateSemKey (indexName name)) ∧
    ¬ ∀ name other, name ≠ other → other ≠ indexName name → name ≠ indexName other →
      (keysOf name other).Nodup := by
  have self : generateSemKey "viksacye" = generateSemKey (indexName "viksacye") := by
    decide +kernel
  have names : generateSemKey "Aa" = generateSemKey "BB" := by decide +kernel
  refine ⟨self, names, fun differ => differ _ self, fun differ => ?_⟩
  have nodup := differ "Aa" "BB" (by decide) (by decide) (by decide)
  simp [keysOf, names] at nodup

end InMemoryTable
