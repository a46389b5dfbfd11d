import Rinha.Store.Model.Image
/-!
# A `Customer` as bytes

The cast reads back what the bytes of a `Customer` were made of, whatever
is in the padding and wherever the bytes have been in between
(`Customer.ofMemory_image`).
-/

namespace Rinha

variable {mem : ℕ → UInt8} {start : ℕ} {x : Int32}

/-- Four bytes are an `int`. -/
theorem intAt_of_bytes (h : ∀ k < 4, mem (start + k) = intByte x k) : intAt mem start = x := by
  have hbyte : ∀ k < 4, (mem (start + k)).toNat = x.toUInt32.toNat / 256 ^ k % 256 := by
    intro k hk
    rw [h k hk, intByte, UInt8.toNat_ofNat']
  have h0 := hbyte 0 (by omega)
  have h1 := hbyte 1 (by omega)
  have h2 := hbyte 2 (by omega)
  have h3 := hbyte 3 (by omega)
  rw [Nat.add_zero] at h0
  have hlt := x.toUInt32.toNat_lt
  have hsum : (mem start).toNat + 256 * ((mem (start + 1)).toNat +
      256 * ((mem (start + 2)).toNat + 256 * (mem (start + 3)).toNat)) = x.toUInt32.toNat := by
    rw [h0, h1, h2, h3]
    omega
  rw [intAt, hsum, UInt32.ofNat_toNat, Int32.toInt32_toUInt32]

theorem getD_toList {α : Type} {n k : ℕ} {v : Vector α n} {d : α} (hk : k < n) :
    v.toList.getD k d = v[k] := by
  have hlen : k < v.toList.length := by simpa using hk
  rw [List.getD_eq_getElem?_getD, List.getElem?_eq_getElem hlen, Option.getD_some,
    Vector.getElem_toList]

/-- An array of `char`s in a row of bytes. -/
theorem ofFn_eq {n : ℕ} {v : Vector UInt8 n}
    (h : ∀ k < n, mem (start + k) = v.toList.getD k 0) :
    (Vector.ofFn fun k : Fin n => mem (start + k)) = v := by
  ext1 k hk
  rw [Vector.getElem_ofFn, h k hk, getD_toList hk]

theorem Transaction.ofMemory_of_bytes {t : Transaction}
    (h : ∀ k < 35, ∃ padding, mem (start + k) = t.byteAt padding k) :
    Transaction.ofMemory mem start = t := by
  have hvalue : intAt mem start = t.value := by
    refine intAt_of_bytes fun k hk => ?_
    obtain ⟨padding, hbyte⟩ := h k (by omega)
    rw [hbyte, Transaction.byteAt, if_pos hk]
  have hdescription : (Vector.ofFn fun k : Fin 11 => mem (start + 4 + k)) = t.description := by
    refine ofFn_eq fun k hk => ?_
    obtain ⟨padding, hbyte⟩ := h (4 + k) (by omega)
    rw [Nat.add_assoc, hbyte, Transaction.byteAt, if_neg (by omega), if_pos (by omega),
      Nat.add_sub_cancel_left]
  have htimestamp : (Vector.ofFn fun k : Fin 20 => mem (start + 15 + k)) = t.timestamp := by
    refine ofFn_eq fun k hk => ?_
    obtain ⟨padding, hbyte⟩ := h (15 + k) (by omega)
    rw [Nat.add_assoc, hbyte, Transaction.byteAt, if_neg (by omega), if_neg (by omega),
      if_pos (by omega), Nat.add_sub_cancel_left]
  rw [Transaction.ofMemory, hvalue, hdescription, htimestamp]

/-- What the bytes of a `Customer` say about memory. -/
theorem Customer.byte_of_image {c : Customer} {padding : ℕ → UInt8}
    (h : Memory.slice mem start sizeofCustomer = c.image padding) {k : ℕ} (hk : k < 372) :
    mem (start + k) = c.byteAt padding k := by
  have hget := congrArg (·[k]?) h
  simp only [Customer.image, sizeofCustomer] at hget
  rw [Memory.getElem?_slice hk, Memory.getElem?_slice hk, Nat.zero_add] at hget
  exact Option.some.inj hget

/-- **The cast undoes the bytes.** -/
theorem Customer.ofMemory_image {c : Customer} {padding : ℕ → UInt8}
    (h : Memory.slice mem start sizeofCustomer = c.image padding) :
    Customer.ofMemory mem start = c := by
  have hbyte := fun {k : ℕ} (hk : k < 372) => Customer.byte_of_image h hk
  have hlimit : intAt mem start = c.limit := by
    refine intAt_of_bytes fun k hk => ?_
    rw [hbyte (by omega), Customer.byteAt, if_pos hk]
  have hbalance : intAt mem (start + 4) = c.balance := by
    refine intAt_of_bytes fun k hk => ?_
    rw [Nat.add_assoc, hbyte (by omega), Customer.byteAt, if_neg (by omega), if_pos (by omega),
      Nat.add_sub_cancel_left]
  have htransactions : (Vector.ofFn fun i : Fin 10 =>
      Transaction.ofMemory mem (start + 8 + sizeofTransaction * i)) = c.transactions := by
    ext1 i hi
    rw [Vector.getElem_ofFn]
    refine Transaction.ofMemory_of_bytes fun k hk => ⟨padding (8 + 36 * i + k), ?_⟩
    have hdiv : (8 + 36 * i + k - 8) / 36 = i := by omega
    have hmod : (8 + 36 * i + k - 8) % 36 = k := by omega
    have hget : c.transactions.toList.getD i Transaction.zero = c.transactions[i] := getD_toList hi
    have hat : start + 8 + sizeofTransaction * i + k = start + (8 + 36 * i + k) := by
      simp only [sizeofTransaction]
      omega
    simp only [hat]
    rw [hbyte (by omega), Customer.byteAt, if_neg (by omega), if_neg (by omega), if_pos (by omega),
      sizeofTransaction, hdiv, hmod, hget]
  have hcount : (mem (start + 368)).toInt8 = c.transactionCount := by
    rw [hbyte (by omega), Customer.byteAt, if_neg (by omega), if_neg (by omega), if_neg (by omega),
      if_pos rfl, Int8.toInt8_toUInt8]
  have hnext : (mem (start + 369)).toInt8 = c.nextTransactionIndex := by
    rw [hbyte (by omega), Customer.byteAt, if_neg (by omega), if_neg (by omega), if_neg (by omega),
      if_neg (by omega), if_pos rfl, Int8.toInt8_toUInt8]
  rw [Customer.ofMemory, hlimit, hbalance, htransactions, hcount, hnext]

theorem Customer.length_image (c : Customer) (padding : ℕ → UInt8) :
    (c.image padding).length = sizeofCustomer := Memory.length_slice

/-! ## A field -/

/-- A field that holds the bytes of a `Customer` is cast to it. -/
theorem Customer.ofField_image (c : Customer) (padding behind : ℕ → UInt8) :
    Customer.ofField (c.image padding) behind = c :=
  Customer.ofMemory_image (by
    rw [← Customer.length_image c padding]
    exact Memory.slice_put_self)

theorem intAt_congr {mem' : ℕ → UInt8} (h : ∀ k < 4, mem (start + k) = mem' (start + k)) :
    intAt mem start = intAt mem' start := by
  have h0 := h 0 (by omega)
  rw [Nat.add_zero] at h0
  rw [intAt, intAt, h0, h 1 (by omega), h 2 (by omega), h 3 (by omega)]

theorem Transaction.ofMemory_congr {mem' : ℕ → UInt8}
    (h : ∀ k < 35, mem (start + k) = mem' (start + k)) :
    Transaction.ofMemory mem start = Transaction.ofMemory mem' start := by
  have hdescription : ∀ k : Fin 11, mem (start + 4 + k) = mem' (start + 4 + k) := fun k => by
    rw [Nat.add_assoc]
    exact h _ (by omega)
  have htimestamp : ∀ k : Fin 20, mem (start + 15 + k) = mem' (start + 15 + k) := fun k => by
    rw [Nat.add_assoc]
    exact h _ (by omega)
  rw [Transaction.ofMemory, Transaction.ofMemory, intAt_congr fun k hk => h k (by omega)]
  simp only [hdescription, htimestamp]

/-- The cast looks at the bytes of a `Customer` alone. -/
theorem Customer.ofMemory_congr {mem' : ℕ → UInt8}
    (h : ∀ k < sizeofCustomer, mem (start + k) = mem' (start + k)) :
    Customer.ofMemory mem start = Customer.ofMemory mem' start := by
  simp only [sizeofCustomer] at h
  have hbalance : ∀ k < 4, mem (start + 4 + k) = mem' (start + 4 + k) := fun k hk => by
    rw [Nat.add_assoc]
    exact h _ (by omega)
  have htransactions : ∀ i : Fin 10,
      Transaction.ofMemory mem (start + 8 + sizeofTransaction * i) =
        Transaction.ofMemory mem' (start + 8 + sizeofTransaction * i) := fun i => by
    refine Transaction.ofMemory_congr fun k hk => ?_
    rw [Nat.add_assoc start, Nat.add_assoc start, sizeofTransaction]
    exact h _ (by omega)
  rw [Customer.ofMemory, Customer.ofMemory, intAt_congr fun k hk => h k (by omega),
    intAt_congr hbalance, h 368 (by omega), h 369 (by omega)]
  simp only [htransactions]

/-- **A field as long as a `Customer`** is all the cast looks at. -/
theorem Customer.ofField_of_le {v : Bytes} (h : sizeofCustomer ≤ v.length)
    (behind behind' : ℕ → UInt8) : Customer.ofField v behind = Customer.ofField v behind' :=
  ofMemory_congr fun k hk => by
    rw [Memory.put_add (by omega), Memory.put_add (by omega)]

/-- A shorter one leaves the slot to write next to memory. -/
theorem Customer.exists_ofField_ne {v : Bytes} (h : v.length < 370) :
    ∃ behind behind', Customer.ofField v behind ≠ Customer.ofField v behind' := by
  have hnext : ∀ b : UInt8, (Customer.ofField v fun _ => b).nextTransactionIndex = b.toInt8 :=
    fun b => congrArg UInt8.toInt8 (Memory.put_of_ge (by omega))
  refine ⟨fun _ => 0, fun _ => 1, fun heq => ?_⟩
  have hbytes := congrArg Customer.nextTransactionIndex heq
  rw [hnext, hnext] at hbytes
  exact absurd hbytes (by decide)

end Rinha
