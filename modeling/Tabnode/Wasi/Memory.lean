import Tabnode.Wasi.Bounds

/-!
# What is put in the guest's memory

A syscall leaves its answers in the guest's memory, number by number, and the guest reads them back.
A store is read back where it was made and nowhere else, and what a row of stores leaves alone is
the memory outside a range, the table, and the host.
-/

namespace Tabnode

namespace Wasi

open List

variable {η : Type}

def bytesIn (memory : List UInt8) (offset size : ℕ) : List UInt8 := (memory.drop offset).take size

section Bytes

variable {memory memory' source : List UInt8} {offset size position : ℕ}

theorem length_bytesIn (h : offset + size ≤ memory.length) :
    (bytesIn memory offset size).length = size := by
  rw [bytesIn, length_take, length_drop]
  omega

theorem bytesIn_congr (h : ∀ i, offset ≤ i → i < offset + size → memory'[i]? = memory[i]?) :
    bytesIn memory' offset size = bytesIn memory offset size := by
  refine ext_getElem? fun i => ?_
  rw [bytesIn, bytesIn, getElem?_take, getElem?_take, getElem?_drop,
    getElem?_drop]
  split_ifs with hi
  · exact h _ (by omega) (by omega)
  · rfl

theorem bytesIn_overwrite_self (h : position + source.length ≤ memory.length) :
    bytesIn (ByteHeap.overwrite memory position source) position source.length = source := by
  have htake : (memory.take position).length = position := length_take_of_le (by omega)
  rw [bytesIn, ByteHeap.overwrite, append_assoc, drop_append_of_le_length (by omega),
    drop_of_length_le (by omega), nil_append, take_left]

theorem bytesIn_bytesIn {inner length : ℕ} (h : inner + length ≤ size) :
    bytesIn (bytesIn memory offset size) inner length = bytesIn memory (offset + inner) length := by
  rw [bytesIn, bytesIn, bytesIn, drop_take, take_take, drop_drop,
    Nat.min_eq_left (by omega)]

theorem drop_bytesIn (inner : ℕ) : (bytesIn memory offset size).drop inner =
    bytesIn memory (offset + inner) (size - inner) := by
  rw [bytesIn, bytesIn, drop_take, drop_drop]

end Bytes

/-! ## Stores -/

/-- What a call leaves: the table, the host in a good state, the memory outside a range. -/
structure Leaves (good : η → Prop) (low high : ℕ) (w w' : World η) : Prop where
  table : w'.table = w.table
  good : good w'.host
  length : w'.memory.length = w.memory.length
  outside : ∀ i, i < low ∨ high ≤ i → w'.memory[i]? = w.memory[i]?

theorem Leaves.trans {good : η → Prop} {low high : ℕ} {w w' w'' : World η}
    (h : Leaves good low high w w') (h' : Leaves good low high w' w'') :
    Leaves good low high w w'' where
  table := h'.table.trans h.table
  good := h'.good
  length := h'.length.trans h.length
  outside i hi := (h'.outside i hi).trans (h.outside i hi)

theorem Leaves.mono {good : η → Prop} {low high low' high' : ℕ} {w w' : World η}
    (h : Leaves good low high w w') (hlow : low' ≤ low) (hhigh : high ≤ high') :
    Leaves good low' high' w w' where
  __ := h
  outside i hi := h.outside i (by omega)

variable {good : η → Prop} {w : World η}

theorem Leaves.bytesIn {low high offset size : ℕ} {w' : World η}
    (h : Leaves good low high w w') (hapart : offset + size ≤ low ∨ high ≤ offset) :
    bytesIn w'.memory offset size = bytesIn w.memory offset size :=
  bytesIn_congr fun i _ _ => h.outside i (by omega)

theorem run_store {offset : ℕ} {bytes : List UInt8} (hgood : good w.host)
    (h : offset + bytes.length ≤ w.memory.length) :
    ∃ w', (store offset bytes : Syscall η Unit).run w = (.ok (), w') ∧
      Leaves good offset (offset + bytes.length) w w' ∧
      Wasi.bytesIn w'.memory offset bytes.length = bytes := by
  refine ⟨{ w with
    memory := ByteHeap.overwrite w.memory offset bytes,
    history := w.history ++ [.store offset bytes.length] }, ?_, ?_, bytesIn_overwrite_self h⟩
  · rw [Effect.run, store, if_pos (by simpa [World.fits] using h)]
  · exact ⟨rfl, hgood, ByteHeap.length_overwrite h, fun i hi => getElem?_overwrite_of_apart h hi⟩

theorem run_storeNumber {size offset value : ℕ} (hgood : good w.host)
    (h : offset + size ≤ w.memory.length) :
    ∃ w', (storeNumber size offset value : Syscall η Unit).run w = (.ok (), w') ∧
      Leaves good offset (offset + size) w w' ∧
      ByteNumber.ofLittle (Wasi.bytesIn w'.memory offset size) = value % 256 ^ size := by
  obtain ⟨w', hrun, hleaves, hbytes⟩ := @run_store _ good w offset
    (ByteNumber.toLittle size ((value : ℤ) % 256 ^ size).toNat) hgood
    (by rwa [ByteNumber.length_toLittle])
  rw [ByteNumber.length_toLittle] at hleaves hbytes
  refine ⟨w', hrun, hleaves, ?_⟩
  have hvalue : ((value : ℤ) % 256 ^ size).toNat = value % 256 ^ size := by
    have hcast : ((value : ℤ) % 256 ^ size) = ((value % 256 ^ size : ℕ) : ℤ) := by push_cast; rfl
    rw [hcast, Int.toNat_natCast]
  rw [hbytes, ByteNumber.ofLittle_toLittle, hvalue, Nat.mod_mod]

theorem run_ask (host : Host η) (call : HostCall) (w : World η) :
    (ask host call).run w = (((host.answer w.host call).1.mapError .thrown), { w with
      host := (host.answer w.host call).2, history := w.history ++ [.call w.host call] }) := by
  rw [Effect.run, ask]
  rcases (host.answer w.host call).1 with e | a
  · rfl
  · rfl

theorem run_checkFits {offset size : ℕ} (h : w.fits offset size = true) :
    (checkFits offset size : Syscall η Unit).run w = (.ok (), w) := by
  rw [checkFits, Effect.run_get_bind, h]
  rfl

theorem run_lookup {fd : ℕ} {base inheriting : Rights} {d : Descriptor}
    (h : w.lookup fd base inheriting = .ok d) :
    (lookup fd base inheriting : Syscall η Descriptor).run w = (.ok d, w) := by
  rw [lookup, Effect.run_get_bind, h]
  rfl

end Wasi

end Tabnode
