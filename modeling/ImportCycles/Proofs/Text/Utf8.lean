import ImportCycles.Text.Utf8
/-!
Characters written as UTF-8 and read again. What the characters are written as is read leniently as
these characters, and it can be cut at every slash.
-/
namespace ImportCycles.Text.Utf8

variable {c : Char} {cs : List Char} {done : List Char} {rest : List UInt8} {n k : Nat} {b : UInt8}
  {state next : State}

theorem encode_append (cs more : List Char) : encode (cs ++ more) = encode cs ++ encode more :=
  List.flatMap_append

/-- What the first byte says, by its value. -/
theorem lead_eq (b : UInt8) : lead b =
    if b.toNat < 0x80 then .char (Char.ofNat b.toNat)
    else if b.toNat < 0xC2 then .refused
    else if b.toNat < 0xE0 then .more (.inside 1 1 0x80 0xBF (b.toNat - 0xC0))
    else if b.toNat = 0xE0 then .more (.inside 1 2 0xA0 0xBF 0)
    else if b.toNat = 0xED then .more (.inside 1 2 0x80 0x9F 0x0D)
    else if b.toNat < 0xF0 then .more (.inside 1 2 0x80 0xBF (b.toNat - 0xE0))
    else if b.toNat = 0xF0 then .more (.inside 1 3 0x90 0xBF 0)
    else if b.toNat < 0xF4 then .more (.inside 1 3 0x80 0xBF (b.toNat - 0xF0))
    else if b.toNat = 0xF4 then .more (.inside 1 3 0x80 0x8F 0x04)
    else .refused := by
  simp only [lead, UInt8.lt_iff_toNat_lt, ← UInt8.toNat_inj, UInt8.reduceToNat]

theorem feed_inside {read owed bits : Nat} {low high : UInt8} :
    (State.inside read owed low high bits).feed b =
      if low.toNat ≤ b.toNat ∧ b.toNat ≤ high.toNat then
        if owed = 1 then .char (Char.ofNat (bits * 64 + (b.toNat - 0x80)))
        else .more (.inside (read + 1) (owed - 1) 0x80 0xBF (bits * 64 + (b.toNat - 0x80)))
      else .refused := by
  simp only [State.feed, UInt8.le_iff_toNat_le]

/-- A continuation byte adds six bits. -/
theorem lenientFrom_more {read owed bits m : Nat} {low high : UInt8} (howed : owed ≠ 1)
    (hlow : low.toNat ≤ 0x80 + m) (hhigh : 0x80 + m ≤ high.toNat) :
    lenientFrom (.inside read owed low high bits) done (UInt8.ofNat (m + 128) :: rest) =
      lenientFrom (.inside (read + 1) (owed - 1) 0x80 0xBF (bits * 64 + m)) done rest := by
  have hhighest := high.toNat_lt
  have hvalue : (UInt8.ofNat (m + 128)).toNat = m + 128 := by
    rw [UInt8.toNat_ofNat']
    omega
  rw [lenientFrom, feed_inside, hvalue, if_pos ⟨by omega, by omega⟩, if_neg howed,
    Nat.add_sub_cancel]

/-- The last continuation byte ends the character. -/
theorem lenientFrom_last {read bits m : Nat} {low high : UInt8}
    (hlow : low.toNat ≤ 0x80 + m) (hhigh : 0x80 + m ≤ high.toNat) :
    lenientFrom (.inside read 1 low high bits) done (UInt8.ofNat (m + 128) :: rest) =
      lenientFrom .start (Char.ofNat (bits * 64 + m) :: done) rest := by
  have hhighest := high.toNat_lt
  have hvalue : (UInt8.ofNat (m + 128)).toNat = m + 128 := by
    rw [UInt8.toNat_ofNat']
    omega
  rw [lenientFrom, feed_inside, hvalue, if_pos ⟨by omega, by omega⟩, if_pos rfl,
    Nat.add_sub_cancel]

theorem lead_two (hlow : 0xC2 ≤ b.toNat) (hhigh : b.toNat < 0xE0) :
    lead b = .more (.inside 1 1 0x80 0xBF (b.toNat - 0xC0)) := by
  rw [lead_eq, if_neg (by omega), if_neg (by omega), if_pos hhigh]

theorem lead_three (hlow : 0xE0 ≤ b.toNat) (hhigh : b.toNat < 0xF0) :
    lead b = .more (.inside 1 2 (if b.toNat = 0xE0 then 0xA0 else 0x80)
      (if b.toNat = 0xED then 0x9F else 0xBF) (b.toNat - 0xE0)) := by
  rw [lead_eq, if_neg (by omega), if_neg (by omega), if_neg (by omega)]
  by_cases hfirst : b.toNat = 0xE0
  · simp [hfirst]
  by_cases hlast : b.toNat = 0xED
  · simp [hlast]
  · simp only [hfirst, hlast, hhigh, if_true, if_false]

theorem lead_four (hlow : 0xF0 ≤ b.toNat) (hhigh : b.toNat ≤ 0xF4) :
    lead b = .more (.inside 1 3 (if b.toNat = 0xF0 then 0x90 else 0x80)
      (if b.toNat = 0xF4 then 0x8F else 0xBF) (b.toNat - 0xF0)) := by
  rw [lead_eq, if_neg (by omega), if_neg (by omega), if_neg (by omega), if_neg (by omega),
    if_neg (by omega), if_neg (by omega)]
  by_cases hfirst : b.toNat = 0xF0
  · simp [hfirst]
  by_cases hlast : b.toNat = 0xF4
  · simp [hlast]
  · rw [if_neg hfirst, if_pos (by omega), if_neg hfirst, if_neg hlast]

/-- A character is read from the bytes that spell it. -/
theorem lenientFrom_char (c : Char) (done : List Char) (rest : List UInt8) :
    lenientFrom .start done (String.utf8EncodeChar c ++ rest) =
      lenientFrom .start (c :: done) rest := by
  have hvalid : c.val.toNat < 0xD800 ∨ 0xDFFF < c.val.toNat ∧ c.val.toNat < 0x110000 := c.valid
  have hc : Char.ofNat c.val.toNat = c := Char.ofNat_toNat c
  generalize hn : c.val.toNat = n at hc hvalid
  have hvalue : ∀ m, m < 256 → (UInt8.ofNat m).toNat = m := by
    intro m hm
    rw [UInt8.toNat_ofNat']
    omega
  have hsame : ∀ m, m = n → Char.ofNat m = c := by
    intro m hm
    rw [hm, hc]
  simp only [String.utf8EncodeChar, hn]
  split
  · simp only [List.cons_append, List.nil_append, lenientFrom, State.feed]
    rw [lead_eq, hvalue n (by omega), if_pos (by omega), hc]
  split
  · have hlead := hvalue (n / 64 % 32 + 192) (by omega)
    simp only [List.cons_append, List.nil_append]
    rw [lenientFrom, State.feed, lead_two (by omega) (by omega), hlead]
    dsimp only
    rw [lenientFrom_last (by simp) (by simp; omega), hsame _ (by omega)]
  split
  · have hlead := hvalue (n / 4096 % 16 + 224) (by omega)
    simp only [List.cons_append, List.nil_append]
    have hlow : (if n / 4096 % 16 + 224 = 0xE0 then (0xA0 : UInt8) else 0x80).toNat ≤
        0x80 + n / 64 % 64 := by
      split
      · change 0xA0 ≤ 0x80 + n / 64 % 64
        omega
      · exact Nat.le_add_right 0x80 _
    have hhigh : 0x80 + n / 64 % 64 ≤
        (if n / 4096 % 16 + 224 = 0xED then (0x9F : UInt8) else 0xBF).toNat := by
      split
      · change 0x80 + n / 64 % 64 ≤ 0x9F
        omega
      · change 0x80 + n / 64 % 64 ≤ 0xBF
        omega
    rw [lenientFrom, State.feed, lead_three (by omega) (by omega), hlead]
    dsimp only
    rw [lenientFrom_more (by omega) hlow hhigh, lenientFrom_last (by simp) (by simp; omega),
      hsame _ (by omega)]
  · have hlead := hvalue (n / 262144 % 8 + 240) (by omega)
    simp only [List.cons_append, List.nil_append]
    have hlow : (if n / 262144 % 8 + 240 = 0xF0 then (0x90 : UInt8) else 0x80).toNat ≤
        0x80 + n / 4096 % 64 := by
      split
      · change 0x90 ≤ 0x80 + n / 4096 % 64
        omega
      · exact Nat.le_add_right 0x80 _
    have hhigh : 0x80 + n / 4096 % 64 ≤
        (if n / 262144 % 8 + 240 = 0xF4 then (0x8F : UInt8) else 0xBF).toNat := by
      split
      · change 0x80 + n / 4096 % 64 ≤ 0x8F
        omega
      · change 0x80 + n / 4096 % 64 ≤ 0xBF
        omega
    rw [lenientFrom, State.feed, lead_four (by omega) (by omega), hlead]
    dsimp only
    rw [lenientFrom_more (by omega) hlow hhigh,
      lenientFrom_more (by omega) (by simp) (by simp; omega),
      lenientFrom_last (by simp) (by simp; omega), hsame _ (by omega)]

/-- Characters are read from the bytes that spell them, whatever bytes follow. -/
theorem lenientFrom_encode (cs done : List Char) (rest : List UInt8) :
    lenientFrom .start done (encode cs ++ rest) = lenientFrom .start (cs.reverse ++ done) rest := by
  induction cs generalizing done with
  | nil => rfl
  | cons c cs ih =>
    have hencode : encode (c :: cs) = String.utf8EncodeChar c ++ encode cs := rfl
    rw [hencode, List.append_assoc, lenientFrom_char, ih, List.reverse_cons, List.append_assoc,
      List.singleton_append]

/-- What is written as UTF-8 is read as it was, even leniently. -/
theorem lenient_encode (cs : List Char) : lenient (encode cs) = cs := by
  have hread := lenientFrom_encode cs [] []
  simpa [lenient, lenientFrom] using hread

/-- What has been read stays, whatever bytes follow. -/
theorem exists_lenientFrom (state : State) (done : List Char) (bytes : List UInt8) :
    ∃ more, lenientFrom state done bytes = done.reverse ++ more := by
  induction bytes generalizing state done with
  | nil =>
    by_cases h : state = .start
    · exact ⟨[], by simp [lenientFrom, h]⟩
    · exact ⟨[replacement], by simp [lenientFrom, h]⟩
  | cons b bytes ih =>
    have hread : ∀ next added, ∃ more,
        lenientFrom next (added ++ done) bytes = done.reverse ++ more := by
      intro next added
      obtain ⟨more, h⟩ := ih next (added ++ done)
      exact ⟨added.reverse ++ more, by simp [h]⟩
    rw [lenientFrom]
    cases state.feed b with
    | more next => exact hread next []
    | char c => exact hread .start [c]
    | refused =>
      by_cases h : state = .start
      · rw [if_pos h]
        exact hread .start [replacement]
      · rw [if_neg h]
        cases lead b with
        | more next => exact hread next [replacement]
        | char c => exact hread .start [c, replacement]
        | refused => exact hread .start [replacement, replacement]

theorem prefix_lenient (cs : List Char) (bytes : List UInt8) :
    cs <+: lenient (encode cs ++ bytes) := by
  obtain ⟨more, hmore⟩ := exists_lenientFrom .start (cs.reverse ++ []) bytes
  refine ⟨more, ?_⟩
  rw [lenient, lenientFrom_encode, hmore]
  simp

end ImportCycles.Text.Utf8
