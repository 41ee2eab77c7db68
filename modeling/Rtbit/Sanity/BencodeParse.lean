import Rtbit.Spec.BencodeParse

/-! A parse that ends within the data has read a complete value, and one that ends beyond it had data
that is cut between two items. In the other direction, the parser reads both. -/

namespace Rtbit.BencodeParse

open Lib

variable {N : Type} {js : Engine N} {data p q k bytes body : List UInt8} {o o' i j fuel fuel' : ℕ}
  {t : String} {n : N} {v : BencodeValue N} {vs : List (BencodeValue N)}
  {d : BencodeDict (BencodeValue N)} {r : Option (BencodeValue N × ℕ)}

/-! Strings and integers. -/

theorem decodeString_of_isString (hk : IsString k bytes) (hread : k <+: data.drop o) :
    decodeString js data o = some (js.decode bytes, o + k.length) := by
  obtain ⟨digits, hne, hdigits, hlen, rfl⟩ := hk
  have hstop : digits ++ [0x3a] <+: data.drop o := by
    refine List.IsPrefix.trans ⟨bytes, ?_⟩ hread
    simp
  have hskip := skipWhile_eq hdigits hstop (by decide)
  obtain ⟨hread, hrest⟩ := append_prefix_drop.1 hread
  obtain ⟨hcolon, hbytes⟩ := cons_prefix_drop.1 hrest
  have hpos := List.length_pos_of_ne_nil hne
  have hfit : o + digits.length + 1 + bytes.length ≤ data.length := by
    have hlt := (List.getElem?_eq_some_iff.1 hcolon).1
    have hle := hbytes.length_le
    rw [List.length_drop] at hle
    omega
  unfold decodeString
  rw [hskip]
  simp only
  rw [if_neg (by rw [hcolon]; simp; omega), extract_prefix_drop hread, hlen, if_neg (by omega),
    extract_prefix_drop hbytes]
  simp [Nat.add_assoc, Nat.add_comm 1]

theorem isString_of_decodeString (h : decodeString js data o = some (t, o')) :
    ∃ k bytes, IsString k bytes ∧ k <+: data.drop o ∧ t = js.decode bytes ∧ o' = o + k.length := by
  obtain ⟨digits, hdigits, hread, hskip, -⟩ := skipWhile_spec isDigit data o
  unfold decodeString at h
  rw [hskip] at h
  simp only at h
  rw [extract_prefix_drop hread] at h
  split_ifs at h with hbad hfit
  obtain ⟨hne, hcolon⟩ := not_or.1 hbad
  obtain ⟨rfl, rfl⟩ := Prod.mk.inj (Option.some.inj h)
  set bytes := data.extract (o + digits.length + 1) (o + digits.length + 1 + ofDecimal digits)
    with hbytes
  have hpre : bytes <+: data.drop (o + digits.length + 1) := by
    rw [hbytes, List.extract_eq_take_drop]
    exact List.take_prefix _ _
  have hlen : bytes.length = ofDecimal digits := by
    rw [hbytes, List.extract_eq_take_drop, List.length_take, List.length_drop]
    omega
  refine ⟨digits ++ 0x3a :: bytes, bytes, ⟨digits, ?_, hdigits, hlen.symm, rfl⟩, ?_, rfl, ?_⟩
  · rintro rfl
    exact hne rfl
  · exact append_prefix_drop.2 ⟨hread, cons_prefix_drop.2 ⟨not_not.1 hcolon, hpre⟩⟩
  · rw [List.length_append, List.length_cons, hlen]
    omega

theorem decodeInt_of_body (hbody : 0x65 ∉ body) (hread : 0x69 :: body ++ [0x65] <+: data.drop o) :
    decodeInt js data o =
      some (js.parseInt (js.decode body), o + (0x69 :: body ++ [0x65]).length) := by
  rw [List.cons_append] at hread
  obtain ⟨hi, hrest⟩ := cons_prefix_drop.1 hread
  have hskip : skipWhile (· != 0x65) data (o + 1) = o + 1 + body.length := by
    refine skipWhile_eq (fun b hb => ?_) hrest (by decide)
    rw [bne_iff_ne]
    exact fun he => hbody (he ▸ hb)
  have hfit := le_length_prefix_drop hrest (by simp)
  rw [List.length_append, List.length_singleton] at hfit
  unfold decodeInt
  rw [hskip]
  simp only
  rw [if_neg (not_not.2 hi), if_neg (by omega),
    extract_prefix_drop (append_prefix_drop.1 hrest).1]
  simp [Nat.add_assoc, Nat.add_comm 1]

theorem body_of_decodeInt (h : decodeInt js data o = some (n, o')) :
    ∃ body, 0x65 ∉ body ∧ 0x69 :: body ++ [0x65] <+: data.drop o ∧
      n = js.parseInt (js.decode body) ∧ o' = o + (0x69 :: body ++ [0x65]).length := by
  obtain ⟨body, hbody, hread, hskip, hstop⟩ := skipWhile_spec (· != 0x65) data (o + 1)
  unfold decodeInt at h
  rw [hskip] at h
  simp only at h
  rw [extract_prefix_drop hread] at h
  split_ifs at h with hi hend
  obtain ⟨rfl, rfl⟩ := Prod.mk.inj (Option.some.inj h)
  have he : data[o + 1 + body.length]? = some 0x65 := by
    rw [List.getElem?_eq_getElem (not_le.1 hend)]
    simpa using hstop _ (List.getElem?_eq_getElem (not_le.1 hend))
  refine ⟨body, fun hmem => by simpa using hbody _ hmem, ?_, rfl, ?_⟩
  · rw [List.cons_append]
    exact cons_prefix_drop.2
      ⟨not_not.1 hi, append_prefix_drop.2 ⟨hread, singleton_prefix_drop.2 he⟩⟩
  · simp [Nat.add_assoc, Nat.add_comm 1]

/-! What a parse has met. -/

variable (js data o) in
/-- From `o` on the data has a complete value up to `o'`, or it is cut and `o'` is beyond its end. -/
def Met (v : BencodeValue N) (o' : ℕ) : Prop :=
  (∃ p, Reads js (.value v) p ∧ p <+: data.drop o ∧ o' = o + p.length) ∨
    data.length < o' ∧ CutBetween js (data.drop o)

theorem loop_exit (hread : p <+: data.drop o)
    (hexit : ¬ (o + p.length < data.length ∧ data[o + p.length]? ≠ some 0x65)) :
    p ++ [0x65] <+: data.drop o ∨ data.length ≤ o + p.length ∧ data.drop o = p := by
  rcases Nat.lt_or_ge (o + p.length) data.length with hlt | hge
  · left
    have he : data[o + p.length]? = some 0x65 := not_not.1 fun hne => hexit ⟨hlt, hne⟩
    exact append_prefix_drop.2 ⟨hread, singleton_prefix_drop.2 he⟩
  · right
    refine ⟨hge, ?_⟩
    rw [drop_eq_append hread, List.drop_eq_nil_of_le hge, List.append_nil]

/-- A loop that is entered beyond the data adds one to its offset and ends. -/
theorem listLoop_beyond (hi : data.length < i) (h : listLoop js data fuel vs i = some (some (v, o'))) :
    data.length < o' := by
  cases fuel with
  | zero => simp [listLoop] at h
  | succ fuel =>
    rw [listLoop, if_neg (by omega)] at h
    cases h
    omega

theorem dictLoop_beyond (hi : data.length < i) (h : dictLoop js data fuel d i = some (some (v, o'))) :
    data.length < o' := by
  cases fuel with
  | zero => simp [dictLoop] at h
  | succ fuel =>
    rw [dictLoop, if_neg (by omega)] at h
    cases h
    omega

section

variable (hvalue : ∀ o v o', decodeValue js data fuel o = some (some (v, o')) → Met js data o v o')

include hvalue

theorem met_listLoop_succ
    (hlist : ∀ vs p, Reads js (.items vs) p → 0x6c :: p <+: data.drop o →
      listLoop js data fuel vs (o + (0x6c :: p).length) = some (some (v, o')) → Met js data o v o')
    (hvs : Reads js (.items vs) p) (hread : 0x6c :: p <+: data.drop o)
    (h : listLoop js data (fuel + 1) vs (o + (0x6c :: p).length) = some (some (v, o'))) :
    Met js data o v o' := by
  rw [listLoop] at h
  split_ifs at h with hloop
  · split at h
    · cases h
    · cases h
    · next w j hw =>
      rcases hvalue _ _ _ hw with ⟨q, hq, hqread, rfl⟩ | ⟨hbeyond, hcut⟩
      · have hnext : 0x6c :: (p ++ q) <+: data.drop o := append_prefix_drop.2 ⟨hread, hqread⟩
        refine hlist _ _ (.item hvs hq) hnext ?_
        rw [← List.cons_append, List.length_append, ← Nat.add_assoc]
        exact h
      · refine .inr ⟨listLoop_beyond hbeyond h, ?_⟩
        rw [drop_eq_append hread]
        exact .inList hvs hcut
  · cases h
    rcases loop_exit hread hloop with hend | ⟨hge, hdrop⟩
    · exact .inl ⟨_, .list hvs, hend, by simp [Nat.add_assoc]⟩
    · exact .inr ⟨by omega, hdrop ▸ .list hvs⟩

theorem met_dictLoop_succ
    (hdict : ∀ d p, Reads js (.entries d) p → 0x64 :: p <+: data.drop o →
      dictLoop js data fuel d (o + (0x64 :: p).length) = some (some (v, o')) → Met js data o v o')
    (hd : Reads js (.entries d) p) (hread : 0x64 :: p <+: data.drop o)
    (h : dictLoop js data (fuel + 1) d (o + (0x64 :: p).length) = some (some (v, o'))) :
    Met js data o v o' := by
  rw [dictLoop] at h
  split_ifs at h with hloop
  · split at h
    · cases h
    · next key nextOffset hkey =>
      obtain ⟨k, bytes, hk, hkread, rfl, rfl⟩ := isString_of_decodeString hkey
      have hopen : 0x64 :: p ++ k <+: data.drop o := append_prefix_drop.2 ⟨hread, hkread⟩
      rw [Nat.add_assoc, ← List.length_append] at h
      split at h
      · cases h
      · cases h
      · next w j hw =>
        rcases hvalue _ _ _ hw with ⟨q, hq, hqread, rfl⟩ | ⟨hbeyond, hcut⟩
        · have hnext : 0x64 :: (p ++ k ++ q) <+: data.drop o :=
            append_prefix_drop.2 ⟨hopen, hqread⟩
          refine hdict _ _ (.entry hd hk hq) hnext ?_
          rw [← List.cons_append, ← List.cons_append, List.length_append, ← Nat.add_assoc]
          exact h
        · refine .inr ⟨dictLoop_beyond hbeyond h, ?_⟩
          rw [drop_eq_append hopen]
          exact .inDict hd hk hcut
  · cases h
    rcases loop_exit hread hloop with hend | ⟨hge, hdrop⟩
    · exact .inl ⟨_, .dict hd, hend, by simp [Nat.add_assoc]⟩
    · exact .inr ⟨by omega, hdrop ▸ .dict hd⟩

end

theorem met_decodeValue_succ
    (hlist : ∀ vs p, Reads js (.items vs) p → 0x6c :: p <+: data.drop o →
      listLoop js data fuel vs (o + (0x6c :: p).length) = some (some (v, o')) → Met js data o v o')
    (hdict : ∀ d p, Reads js (.entries d) p → 0x64 :: p <+: data.drop o →
      dictLoop js data fuel d (o + (0x64 :: p).length) = some (some (v, o')) → Met js data o v o')
    (h : decodeValue js data (fuel + 1) o = some (some (v, o'))) : Met js data o v o' := by
  rw [decodeValue] at h
  split at h
  · cases h
  · next ch hch =>
    split_ifs at h with hdigit hi hl hd
    · obtain ⟨⟨t, j⟩, hstring, hr⟩ := Option.map_eq_some_iff.1 (Option.some.inj h)
      cases hr
      obtain ⟨k, bytes, hk, hread, rfl, rfl⟩ := isString_of_decodeString hstring
      exact .inl ⟨k, .string hk, hread, rfl⟩
    · obtain ⟨⟨n, j⟩, hint, hr⟩ := Option.map_eq_some_iff.1 (Option.some.inj h)
      cases hr
      obtain ⟨body, hbody, hread, rfl, rfl⟩ := body_of_decodeInt hint
      exact .inl ⟨_, .int hbody, hread, rfl⟩
    · subst hl
      exact hlist [] [] .noItems (singleton_prefix_drop.2 hch) h
    · subst hd
      exact hdict .empty [] .noEntries (singleton_prefix_drop.2 hch) h
    · cases h

/-- Every result of a parse, with any fuel. -/
theorem met_of_decodes (fuel : ℕ) :
    (∀ o v o', decodeValue js data fuel o = some (some (v, o')) → Met js data o v o') ∧
    (∀ o vs p v o', Reads js (.items vs) p → 0x6c :: p <+: data.drop o →
      listLoop js data fuel vs (o + (0x6c :: p).length) = some (some (v, o')) → Met js data o v o') ∧
    ∀ o d p v o', Reads js (.entries d) p → 0x64 :: p <+: data.drop o →
      dictLoop js data fuel d (o + (0x64 :: p).length) = some (some (v, o')) →
        Met js data o v o' := by
  induction fuel with
  | zero => simp [decodeValue, listLoop, dictLoop]
  | succ fuel ih =>
    obtain ⟨hvalue, hlist, hdict⟩ := ih
    refine ⟨fun o v o' h => ?_, fun o vs p v o' hvs hread h => ?_, fun o d p v o' hd hread h => ?_⟩
    · exact met_decodeValue_succ (fun vs p => hlist o vs p v o') (fun d p => hdict o d p v o') h
    · exact met_listLoop_succ hvalue (fun vs p => hlist o vs p v o') hvs hread h
    · exact met_dictLoop_succ hvalue (fun d p => hdict o d p v o') hd hread h

theorem met_of_decodeValue (h : decodeValue js data fuel o = some (some (v, o'))) :
    Met js data o v o' :=
  (met_of_decodes fuel).1 o v o' h

/-! The fuel. -/

theorem Reads.ne_nil (h : Reads js (.value v) p) : p ≠ [] := by
  cases h with
  | string hk =>
    obtain ⟨digits, -, -, -, rfl⟩ := hk
    simp
  | int | list | dict => simp

theorem CutBetween.ne_nil (h : CutBetween js p) : p ≠ [] := by
  cases h <;> simp

theorem lt_of_met (h : Met js data o v o') : o < o' := by
  rcases h with ⟨p, hp, -, rfl⟩ | ⟨hbeyond, hcut⟩
  · have hpos := List.length_pos_of_ne_nil hp.ne_nil
    omega
  · have hlt : o < data.length := by simpa using hcut.ne_nil
    omega

theorem lt_of_isString (h : IsString k bytes) : 0 < k.length := by
  obtain ⟨digits, -, -, -, rfl⟩ := h
  simp

theorem enough_fuel (fuel : ℕ) :
    (∀ o, 2 * (data.length - o) + 1 ≤ fuel → ∃ r, decodeValue js data fuel o = some r) ∧
    (∀ vs i, 2 * (data.length - i) + 2 ≤ fuel → ∃ r, listLoop js data fuel vs i = some r) ∧
    ∀ d i, 2 * (data.length - i) + 2 ≤ fuel → ∃ r, dictLoop js data fuel d i = some r := by
  induction fuel with
  | zero => exact ⟨by omega, by omega, by omega⟩
  | succ fuel ih =>
    obtain ⟨hvalue, hlist, hdict⟩ := ih
    refine ⟨fun o hfuel => ?_, fun vs i hfuel => ?_, fun d i hfuel => ?_⟩
    · rw [decodeValue]
      split
      · exact ⟨_, rfl⟩
      · next ch hch =>
        have hlt := (List.getElem?_eq_some_iff.1 hch).1
        split_ifs
        · exact ⟨_, rfl⟩
        · exact ⟨_, rfl⟩
        · exact hlist _ _ (by omega)
        · exact hdict _ _ (by omega)
        · exact ⟨_, rfl⟩
    · rw [listLoop]
      split_ifs with hloop
      · obtain ⟨r, hr⟩ := hvalue i (by omega)
        rw [hr]
        rcases r with _ | ⟨w, j⟩
        · exact ⟨_, rfl⟩
        · have hlt := lt_of_met (met_of_decodeValue hr)
          exact hlist _ _ (by omega)
      · exact ⟨_, rfl⟩
    · rw [dictLoop]
      split_ifs with hloop
      · split
        · exact ⟨_, rfl⟩
        · next key nextOffset hkey =>
          obtain ⟨k, bytes, hk, -, -, rfl⟩ := isString_of_decodeString hkey
          have hpos := lt_of_isString hk
          obtain ⟨r, hr⟩ := hvalue (i + k.length) (by omega)
          rw [hr]
          rcases r with _ | ⟨w, j⟩
          · exact ⟨_, rfl⟩
          · have hlt := lt_of_met (met_of_decodeValue hr)
            exact hdict _ _ (by omega)
      · exact ⟨_, rfl⟩

/-- One more step of fuel changes no result. -/
theorem fuel_succ (fuel : ℕ) :
    (∀ o r, decodeValue js data fuel o = some r → decodeValue js data (fuel + 1) o = some r) ∧
    (∀ vs i r, listLoop js data fuel vs i = some r → listLoop js data (fuel + 1) vs i = some r) ∧
    ∀ d i r, dictLoop js data fuel d i = some r → dictLoop js data (fuel + 1) d i = some r := by
  induction fuel with
  | zero => simp [decodeValue, listLoop, dictLoop]
  | succ fuel ih =>
    obtain ⟨hvalue, hlist, hdict⟩ := ih
    refine ⟨fun o r h => ?_, fun vs i r h => ?_, fun d i r h => ?_⟩
    · rw [decodeValue] at h ⊢
      split at h
      · exact h
      · split_ifs at h ⊢
        · exact h
        · exact h
        · exact hlist _ _ _ h
        · exact hdict _ _ _ h
        · exact h
    · rw [listLoop] at h ⊢
      split_ifs at h ⊢
      · split at h
        · cases h
        · next hv =>
          rw [hvalue _ _ hv]
          exact h
        · next hv =>
          rw [hvalue _ _ hv]
          exact hlist _ _ _ h
      · exact h
    · rw [dictLoop] at h ⊢
      split_ifs at h ⊢
      · split at h
        · exact h
        · split at h
          · cases h
          · next hv =>
            rw [hvalue _ _ hv]
            exact h
          · next hv =>
            rw [hvalue _ _ hv]
            exact hdict _ _ _ h
      · exact h

theorem eq_some_of_le {α : Type} {f : ℕ → Option α} {a : α}
    (hsucc : ∀ fuel, f fuel = some a → f (fuel + 1) = some a) (hle : fuel ≤ fuel')
    (h : f fuel = some a) : f fuel' = some a := by
  induction hle with
  | refl => exact h
  | step _ ih => exact hsucc _ ih

theorem decodeValue_mono (hle : fuel ≤ fuel') (h : decodeValue js data fuel o = some r) :
    decodeValue js data fuel' o = some r :=
  eq_some_of_le (f := fun fuel => decodeValue js data fuel o)
    (fun fuel => (fuel_succ fuel).1 o r) hle h

theorem listLoop_mono (hle : fuel ≤ fuel') (h : listLoop js data fuel vs i = some r) :
    listLoop js data fuel' vs i = some r :=
  eq_some_of_le (f := fun fuel => listLoop js data fuel vs i)
    (fun fuel => (fuel_succ fuel).2.1 vs i r) hle h

theorem dictLoop_mono (hle : fuel ≤ fuel') (h : dictLoop js data fuel d i = some r) :
    dictLoop js data fuel' d i = some r :=
  eq_some_of_le (f := fun fuel => dictLoop js data fuel d i)
    (fun fuel => (fuel_succ fuel).2.2 d i r) hle h

theorem decode_isSome (js : Engine N) (data : List UInt8) : ∃ r, decode js data = some r :=
  (enough_fuel _).1 0 (by omega)

/-- The result with any fuel is that of the parse. -/
theorem decode_eq (h : decodeValue js data fuel 0 = some r) : decode js data = some r := by
  obtain ⟨r', hr'⟩ := decode_isSome js data
  have hmono := decodeValue_mono (Nat.le_max_left fuel (2 * data.length + 1)) h
  rw [decodeValue_mono (Nat.le_max_right fuel (2 * data.length + 1)) hr'] at hmono
  rw [hr', hmono]

/-! Complete parts are read. -/

theorem enters (hp : p.head? ≠ some 0x65) (hne : p ≠ []) (hread : p <+: data.drop o) :
    o < data.length ∧ data[o]? ≠ some 0x65 := by
  obtain ⟨b, t, rfl⟩ := List.exists_cons_of_ne_nil hne
  have hb := (cons_prefix_drop.1 hread).1
  exact ⟨(List.getElem?_eq_some_iff.1 hb).1, hb ▸ hp⟩

theorem IsString.exists_cons (h : IsString k bytes) : ∃ b t, k = b :: t ∧ isDigit b := by
  obtain ⟨digits, hne, hdigits, -, rfl⟩ := h
  obtain ⟨b, t, rfl⟩ := List.exists_cons_of_ne_nil hne
  exact ⟨b, _, rfl, hdigits b (by simp)⟩

theorem IsString.head_ne (h : IsString k bytes) : k.head? ≠ some 0x65 := by
  obtain ⟨b, t, rfl, hdigit⟩ := h.exists_cons
  rintro ⟨⟩
  exact absurd hdigit (by decide)

theorem Reads.head_ne (h : Reads js (.value v) p) : p.head? ≠ some 0x65 := by
  cases h with
  | string hk => exact hk.head_ne
  | int | list | dict => simp

theorem CutBetween.head_ne (h : CutBetween js p) : p.head? ≠ some 0x65 := by
  cases h <;> simp

theorem decodeValue_string (hk : IsString k bytes) (hread : k <+: data.drop o) :
    decodeValue js data (fuel + 1) o = some (some (.string (js.decode bytes), o + k.length)) := by
  obtain ⟨b, t, rfl, hdigit⟩ := hk.exists_cons
  rw [decodeValue, (cons_prefix_drop.1 hread).1]
  simp only
  rw [if_pos hdigit, decodeString_of_isString hk hread]
  rfl

theorem decodeValue_int (hbody : 0x65 ∉ body) (hread : 0x69 :: body ++ [0x65] <+: data.drop o) :
    decodeValue js data (fuel + 1) o = some (some (.number (js.parseInt (js.decode body)),
      o + (0x69 :: body ++ [0x65]).length)) := by
  have hch : decodeValue js data (fuel + 1) o =
      some ((decodeInt js data o).map fun r => (.number r.1, r.2)) := by
    rw [decodeValue, (cons_prefix_drop.1 hread).1]
    rfl
  rw [hch, decodeInt_of_body hbody hread]
  rfl

theorem decodeValue_list (h : data[o]? = some 0x6c) :
    decodeValue js data (fuel + 1) o = listLoop js data fuel [] (o + 1) := by
  rw [decodeValue, h]
  rfl

theorem decodeValue_dict (h : data[o]? = some 0x64) :
    decodeValue js data (fuel + 1) o = dictLoop js data fuel .empty (o + 1) := by
  rw [decodeValue, h]
  rfl

theorem listLoop_exit (hexit : ¬ (i < data.length ∧ data[i]? ≠ some 0x65)) :
    ∃ fuel, listLoop js data fuel vs i = some (some (.list vs, i + 1)) :=
  ⟨1, by rw [listLoop, if_neg hexit]⟩

theorem dictLoop_exit (hexit : ¬ (i < data.length ∧ data[i]? ≠ some 0x65)) :
    ∃ fuel, dictLoop js data fuel d i = some (some (.dict d, i + 1)) :=
  ⟨1, by rw [dictLoop, if_neg hexit]⟩

theorem listLoop_step (hloop : i < data.length ∧ data[i]? ≠ some 0x65)
    (hv : ∃ fuel, decodeValue js data fuel i = some (some (v, j)))
    (h : ∃ fuel, listLoop js data fuel (vs ++ [v]) j = some r) :
    ∃ fuel, listLoop js data fuel vs i = some r := by
  obtain ⟨f, hf⟩ := hv
  obtain ⟨g, hg⟩ := h
  refine ⟨max f g + 1, ?_⟩
  rw [listLoop, if_pos hloop, decodeValue_mono (Nat.le_max_left f g) hf]
  exact listLoop_mono (Nat.le_max_right f g) hg

theorem dictLoop_step (hread : k <+: data.drop i) (hk : IsString k bytes)
    (hv : ∃ fuel, decodeValue js data fuel (i + k.length) = some (some (v, j)))
    (h : ∃ fuel, dictLoop js data fuel (d.assign (js.decode bytes) v) j = some r) :
    ∃ fuel, dictLoop js data fuel d i = some r := by
  obtain ⟨f, hf⟩ := hv
  obtain ⟨g, hg⟩ := h
  have hne : k ≠ [] := List.ne_nil_of_length_pos (lt_of_isString hk)
  refine ⟨max f g + 1, ?_⟩
  rw [dictLoop, if_pos (enters hk.head_ne hne hread), decodeString_of_isString hk hread]
  simp only
  rw [decodeValue_mono (Nat.le_max_left f g) hf]
  exact dictLoop_mono (Nat.le_max_right f g) hg

variable (js data) in
/-- A value is read from its first byte to its last, and a loop goes on after the items or entries. -/
def ReadBy : Part N → List UInt8 → Prop
  | .value v, p => ∀ o, p <+: data.drop o →
    ∃ fuel, decodeValue js data fuel o = some (some (v, o + p.length))
  | .items vs, p => ∀ o r, p <+: data.drop o →
    (∃ fuel, listLoop js data fuel vs (o + p.length) = some r) →
      ∃ fuel, listLoop js data fuel [] o = some r
  | .entries d, p => ∀ o r, p <+: data.drop o →
    (∃ fuel, dictLoop js data fuel d (o + p.length) = some r) →
      ∃ fuel, dictLoop js data fuel .empty o = some r

theorem readBy_of_reads {part : Part N} (h : Reads js part p) : ReadBy js data part p := by
  induction h with
  | string hk => exact fun o hread => ⟨1, decodeValue_string hk hread⟩
  | int hbody => exact fun o hread => ⟨1, decodeValue_int hbody hread⟩
  | list _ ih =>
    intro o hread
    obtain ⟨hch, hrest⟩ := cons_prefix_drop.1 hread
    obtain ⟨hitems, hend⟩ := append_prefix_drop.1 hrest
    obtain ⟨fuel, hfuel⟩ := ih (o + 1) _ hitems
      (listLoop_exit fun hloop => hloop.2 (singleton_prefix_drop.1 hend))
    refine ⟨fuel + 1, ?_⟩
    rw [decodeValue_list hch, hfuel]
    simp [Nat.add_assoc, Nat.add_comm 1]
  | dict _ ih =>
    intro o hread
    obtain ⟨hch, hrest⟩ := cons_prefix_drop.1 hread
    obtain ⟨hentries, hend⟩ := append_prefix_drop.1 hrest
    obtain ⟨fuel, hfuel⟩ := ih (o + 1) _ hentries
      (dictLoop_exit fun hloop => hloop.2 (singleton_prefix_drop.1 hend))
    refine ⟨fuel + 1, ?_⟩
    rw [decodeValue_dict hch, hfuel]
    simp [Nat.add_assoc, Nat.add_comm 1]
  | noItems => exact fun o r _ h => h
  | item _ hv ih ihv =>
    intro o r hread h
    obtain ⟨hitems, hitem⟩ := append_prefix_drop.1 hread
    rw [List.length_append, ← Nat.add_assoc] at h
    exact ih o r hitems (listLoop_step (enters hv.head_ne hv.ne_nil hitem) (ihv _ hitem) h)
  | noEntries => exact fun o r _ h => h
  | entry _ hk hv ih ihv =>
    intro o r hread h
    obtain ⟨hfirst, hvalue⟩ := append_prefix_drop.1 hread
    obtain ⟨hentries, hkey⟩ := append_prefix_drop.1 hfirst
    rw [List.length_append, ← Nat.add_assoc] at h
    rw [List.length_append, ← Nat.add_assoc] at h hvalue
    exact ih o r hentries (dictLoop_step hkey hk (ihv _ hvalue) h)

/-- Data that is cut between two items takes the parse beyond its end. -/
theorem beyond_of_cut (h : CutBetween js q) (hread : q <+: data.drop o)
    (hend : data.length ≤ o + q.length) :
    ∃ fuel v o', decodeValue js data fuel o = some (some (v, o')) ∧ data.length < o' := by
  induction h generalizing o with
  | list hvs =>
    obtain ⟨hch, hitems⟩ := cons_prefix_drop.1 hread
    rw [List.length_cons] at hend
    obtain ⟨fuel, hfuel⟩ := readBy_of_reads hvs (o + 1) _ hitems (listLoop_exit (by omega))
    exact ⟨fuel + 1, _, _, (decodeValue_list hch).trans hfuel, by omega⟩
  | dict hd =>
    obtain ⟨hch, hentries⟩ := cons_prefix_drop.1 hread
    rw [List.length_cons] at hend
    obtain ⟨fuel, hfuel⟩ := readBy_of_reads hd (o + 1) _ hentries (dictLoop_exit (by omega))
    exact ⟨fuel + 1, _, _, (decodeValue_dict hch).trans hfuel, by omega⟩
  | inList hvs hq ih =>
    obtain ⟨hch, hrest⟩ := cons_prefix_drop.1 hread
    obtain ⟨hitems, hinner⟩ := append_prefix_drop.1 hrest
    rw [List.length_append, List.length_cons] at hend
    obtain ⟨f, v, j, hf, hj⟩ := ih hinner (by omega)
    have hloop := enters hq.head_ne hq.ne_nil hinner
    obtain ⟨fuel, hfuel⟩ := readBy_of_reads hvs (o + 1) _ hitems
      (listLoop_step hloop ⟨f, hf⟩ (listLoop_exit (by omega)))
    exact ⟨fuel + 1, _, _, (decodeValue_list hch).trans hfuel, by omega⟩
  | inDict hd hk hq ih =>
    rw [List.length_append, List.length_append, List.length_cons] at hend
    rw [List.append_assoc] at hread
    obtain ⟨hch, hrest⟩ := cons_prefix_drop.1 hread
    obtain ⟨hentries, hrest⟩ := append_prefix_drop.1 hrest
    obtain ⟨hkey, hinner⟩ := append_prefix_drop.1 hrest
    obtain ⟨f, v, j, hf, hj⟩ := ih hinner (by omega)
    obtain ⟨fuel, hfuel⟩ := readBy_of_reads hd (o + 1) _ hentries
      (dictLoop_step hkey hk ⟨f, hf⟩ (dictLoop_exit (by omega)))
    exact ⟨fuel + 1, _, _, (decodeValue_dict hch).trans hfuel, by omega⟩

end Rtbit.BencodeParse
