import Cupcake.Sysenv.Buffer

/-! The buffer as a store of entries, over whole runs. -/

namespace Cupcake.Sysenv

open List Cells

variable {a b junk mem : List Byte} {e : Entry} {es rest : List Entry} {n : Name} {fuel p : ℕ}

/-- The entries, the `'\0'` behind them and what is left of older ones. An empty buffer starts
with two `'\0'` as well. -/
structure Holds (mem : List Byte) (es : List Entry) : Prop where
  length : mem.length = cfgEnvSize - cfgEnvDataOffset
  room : (encode es).length < cfgEnvDataSize
  bytes : ∃ junk, mem = encode es ++ 0 :: junk ∧ (es = [] → ∃ junk', junk = 0 :: junk')
  nodup : (es.map Entry.name).Nodup

theorem Holds.length_lt (h : Holds mem es) : es.length < mem.length := by
  have := h.room
  have hle : es.length ≤ (encode es).length := length_le_length_encode
  rw [h.length]
  simp only [cfgEnvDataSize, cfgEnvSize, cfgEnvDataOffset] at *
  omega

/-! ## Looking up -/

def valueOf (es : List Entry) (n : Name) : Option (List Byte) :=
  (es.find? fun e => e.name = n).map fun e => e.value.bytes

theorem findenvFrom_eq (hfuel : es.length < fuel) (hp : p = a.length)
    (hsize : (a ++ (encode es ++ 0 :: b)).length ≤ cfgEnvSize) :
    ∃ r, findenvFrom (a ++ (encode es ++ 0 :: b)) n.mem fuel p = some r ∧
      match valueOf es n with
      | none => r = none
      | some v => ∃ a' b', a ++ (encode es ++ 0 :: b) = a' ++ (v ++ 0 :: b') ∧ 0 ∉ v ∧
          r = some (a'.length : ℤ) := by
  induction es generalizing a p fuel with
  | nil =>
    obtain _ | fuel := fuel
    · simp at hfuel
    · refine ⟨none, ?_, rfl⟩
      rw [encode_nil, nil_append, findenvFrom, load_mid hp]
      rfl
  | cons e es ih =>
    obtain _ | fuel := fuel
    · simp at hfuel
    · rw [encode_cons, append_assoc] at hsize ⊢
      rw [findenvFrom_cons n hp hsize]
      by_cases hn : n = e.name
      · subst hn
        refine ⟨_, if_pos rfl, ?_⟩
        have hval : valueOf (e :: es) e.name = some e.value.bytes := by simp [valueOf]
        rw [hval]
        refine ⟨a ++ e.name.bytes ++ [sep], encode es ++ 0 :: b, ?_, e.value.noNul, ?_⟩
        · simp [Entry.bytes]
        · simp [hp, add_assoc]
      · have hval : valueOf (e :: es) n = valueOf es n := by simp [valueOf, Ne.symm hn]
        have hsize' : (a ++ e.bytes ++ (encode es ++ 0 :: b)).length ≤ cfgEnvSize := by
          rwa [append_assoc]
        obtain ⟨r, hr, key⟩ := ih (a := a ++ e.bytes) (p := p + e.bytes.length)
          (by simpa using hfuel) (by simp [hp]) hsize'
        rw [append_assoc] at hr key
        rw [if_neg hn, hval]
        exact ⟨r, hr, key⟩

theorem getEnv_eq {s : Env} (hvalid : s.valid = true) (hdata : s.data = some mem)
    (h : Holds mem es) (n : Name) : getEnv s n.mem = some (valueOf es n) := by
  obtain ⟨junk, rfl, -⟩ := h.bytes
  have hsize : ([] ++ (encode es ++ 0 :: junk)).length ≤ cfgEnvSize := by
    rw [nil_append, h.length]
    exact Nat.sub_le ..
  obtain ⟨r, hr, key⟩ := findenvFrom_eq (n := n) (Nat.lt_succ_of_lt h.length_lt) rfl hsize
  rw [nil_append] at hr key
  have hfind : findenv (encode es ++ 0 :: junk) n.mem = some r := hr
  rw [getEnv, hvalid, hdata]
  simp only [Bool.not_true, Bool.false_eq_true, if_false, Option.bind_eq_bind, Option.bind_some,
    hfind]
  cases hval : valueOf es n with
  | none =>
    rw [hval] at key
    rw [key]
  | some v =>
    rw [hval] at key
    obtain ⟨a', b', heq, hv, rfl⟩ := key
    simp only [Int.toNat_natCast, heq, strAt_eq hv rfl, Option.map_some]

/-! ## Deleting -/

theorem findOld_miss (hmiss : ∀ e ∈ es, n ≠ e.name) (hfuel : es.length < fuel) (hp : p = a.length)
    {q : ℕ} :
    ∃ env nxt', findOld (a ++ (encode es ++ 0 :: b)) n.mem fuel p q (-1) =
      some (env, nxt', -1) := by
  induction es generalizing a p fuel q with
  | nil =>
    obtain _ | fuel := fuel
    · simp at hfuel
    · refine ⟨p, q, ?_⟩
      rw [encode_nil, nil_append, findOld, load_mid hp]
      rfl
  | cons e es ih =>
    obtain _ | fuel := fuel
    · simp at hfuel
    · obtain ⟨env, nxt', key⟩ := ih (a := a ++ e.bytes) (p := p + e.bytes.length)
        (q := p + e.text.length) (fun e' he' => hmiss e' (mem_cons_of_mem e he'))
        (by simpa using hfuel) (by simp [hp])
      rw [append_assoc] at key
      rw [encode_cons, append_assoc, findOld_cons n hp, if_neg (hmiss e mem_cons_self)]
      exact ⟨env, nxt', key⟩

theorem findOld_hit (hmiss : ∀ e' ∈ es, e.name ≠ e'.name) (hfuel : es.length < fuel)
    (hp : p = a.length) {q : ℕ} {v : ℤ} :
    findOld (a ++ (encode es ++ (e.bytes ++ b))) e.name.mem fuel p q v =
      some (p + (encode es).length, p + (encode es).length + e.text.length,
        ((p + (encode es).length + e.name.bytes.length + 1 : ℕ) : ℤ)) := by
  induction es generalizing a p fuel q v with
  | nil =>
    obtain _ | fuel := fuel
    · simp at hfuel
    · rw [encode_nil, nil_append, findOld_cons e.name hp, if_pos rfl]
      rfl
  | cons e' es ih =>
    obtain _ | fuel := fuel
    · simp at hfuel
    · have key := ih (a := a ++ e'.bytes) (p := p + e'.bytes.length) (q := p + e'.text.length)
        (v := -1) (fun e'' he'' => hmiss e'' (mem_cons_of_mem e' he''))
        (by simpa using hfuel) (by simp [hp])
      rw [append_assoc] at key
      rw [encode_cons, append_assoc, findOld_cons e.name hp,
        if_neg (hmiss e' mem_cons_self), key]
      simp only [length_append, add_assoc]

theorem deleteOld_eq (e : Entry) (es rest : List Entry) (junk : List Byte) :
    ∃ junk', deleteOld (encode es ++ (e.bytes ++ (encode rest ++ 0 :: junk))) (encode es).length
        ((encode es).length + e.text.length) = some (encode (es ++ rest) ++ 0 :: junk') ∧
      junk'.length = e.bytes.length + junk.length ∧
      (es ++ rest = [] → ∃ junk'', junk' = 0 :: junk'') := by
  obtain ⟨c, t, hc, ht⟩ := e.exists_cons
  have hbytes : e.bytes = c :: (t ++ [0]) := by rw [Entry.bytes_eq, ht]; rfl
  cases rest with
  | nil =>
    have hload : load (encode es ++ e.bytes ++ 0 :: junk) ((encode es).length + e.text.length + 1) =
        some 0 := load_mid (by simp [Entry.bytes_eq, add_assoc])
    rw [append_assoc] at hload
    rw [deleteOld, encode_nil, nil_append, hload]
    cases es with
    | nil =>
      have hvalue := length_pos_iff.mpr e.value_ne_nil
      have hname := length_pos_iff.mpr e.name.ne_nil
      have hlen := congrArg length ht
      simp only [Entry.text, length_append, length_cons] at hlen
      obtain ⟨d, t, rfl⟩ := exists_cons_of_length_pos (show 0 < t.length by omega)
      refine ⟨0 :: (t ++ [0] ++ 0 :: junk), ?_, ?_, fun _ => ⟨_, rfl⟩⟩
      · rw [hbytes]
        rfl
      · simp only [hbytes, length_append, length_cons, length_nil]
        omega
    | cons e' es =>
      have hpos : 0 < (encode (e' :: es)).length := Nat.zero_lt_of_lt two_lt_length_encode
      refine ⟨t ++ [0] ++ 0 :: junk, ?_, ?_, by simp⟩
      · simp only [Option.bind_eq_bind, Option.bind_some, if_true, if_pos hpos,
          Nat.sub_add_cancel hpos, append_nil, hbytes, cons_append]
        rw [store_mid rfl]
      · simp only [hbytes, length_append, length_cons, length_nil]
        omega
  | cons r rs =>
    obtain ⟨d, u, hd, hu⟩ := r.exists_cons
    have hload : load (encode es ++ (e.bytes ++ (encode (r :: rs) ++ 0 :: junk)))
        ((encode es).length + e.text.length + 1) = some d := by
      rw [encode_cons, r.bytes_eq, hu, ← append_assoc]
      exact load_mid (by simp [Entry.bytes_eq, add_assoc])
    have hlen : (t ++ [0]).length + 1 = e.text.length + 1 := by simp [ht]
    have hfuel : (encode (r :: rs)).length ≤
        (encode es ++ (e.bytes ++ (encode (r :: rs) ++ 0 :: junk))).length + 1 := by
      simp only [length_append]
      omega
    obtain ⟨m', g', hg', hmove⟩ := moveDown_eq (a := encode es) (b := junk) (g := t ++ [0]) (m := c)
      packed_encode hfuel rfl
    have hpos : 0 < (encode (r :: rs)).length := Nat.zero_lt_of_lt two_lt_length_encode
    refine ⟨g' ++ 0 :: junk, ?_, ?_, by simp⟩
    · rw [deleteOld, hload]
      rw [hlen, ← cons_append, ← hbytes, ← add_assoc] at hmove
      simp only [Option.bind_eq_bind, Option.bind_some, if_neg hd, hmove]
      rw [← append_assoc, store_mid, encode_append]
      simp only [length_append]
      omega
    · simp only [hbytes, length_append, length_cons, hg']
      omega

theorem filter_name_of_split {l r : List Entry} (hnodup : ((l ++ e :: r).map Entry.name).Nodup) :
    (∀ e' ∈ l, e.name ≠ e'.name) ∧ (l ++ e :: r).filter (fun e' => e'.name ≠ e.name) = l ++ r := by
  simp only [map_append, map_cons, nodup_append, nodup_cons, mem_map,
    mem_cons, not_exists, not_and] at hnodup
  obtain ⟨-, ⟨hr, -⟩, hl⟩ := hnodup
  have hl' : ∀ e' ∈ l, e'.name ≠ e.name := fun e' he' => hl _ ⟨e', he', rfl⟩ _ (.inl rfl)
  refine ⟨fun e' he' => (hl' e' he').symm, ?_⟩
  rw [filter_append, filter_cons_of_neg (by simp), filter_eq_self.mpr (by simpa using hl'),
    filter_eq_self.mpr (by simpa using hr)]

def without (es : List Entry) (n : Name) : List Entry := es.filter fun e => e.name ≠ n

theorem findOld_deleteOld (h : Holds mem es) (n : Name) :
    ∃ env nxt oldval mem', findOld mem n.mem (mem.length + 1) 0 0 (-1) = some (env, nxt, oldval) ∧
      (if 0 < oldval then deleteOld mem env nxt else some mem) = some mem' ∧
      Holds mem' (without es n) := by
  obtain ⟨junk, hmem, hempty⟩ := h.bytes
  have hfuel := Nat.lt_succ_of_lt h.length_lt
  by_cases hn : ∃ e ∈ es, e.name = n
  · obtain ⟨e, he, rfl⟩ := hn
    obtain ⟨l, r, rfl⟩ := append_of_mem he
    obtain ⟨hmiss, hfilter⟩ := filter_name_of_split h.nodup
    rw [encode_append, encode_cons, append_assoc, append_assoc] at hmem
    have hfind := findOld_hit (a := []) (b := encode r ++ 0 :: junk) (q := 0) (v := -1) hmiss
      (lt_of_le_of_lt (by simp) hfuel) rfl
    rw [nil_append, ← hmem] at hfind
    obtain ⟨junk', hdel, hlen, hjunk⟩ := deleteOld_eq e l r junk
    rw [length_nil, zero_add] at hfind
    refine ⟨_, _, _, _, hfind, (if_pos (by omega)).trans (hmem ▸ hdel), ?_⟩
    rw [without, hfilter]
    have hroom := h.room
    have hlength := h.length
    rw [encode_append, encode_cons] at hroom
    simp only [hmem, length_append, length_cons] at hroom hlength
    refine ⟨?_, ?_, ⟨junk', rfl, hjunk⟩, ?_⟩
    · rw [encode_append]
      simp only [length_append, length_cons, hlen]
      omega
    · rw [encode_append, length_append]
      omega
    · refine h.nodup.sublist (List.Sublist.map _ ?_)
      exact List.Sublist.append_left (sublist_cons_self ..) l
  · have hmiss : ∀ e ∈ es, n ≠ e.name := fun e he heq => hn ⟨e, he, heq.symm⟩
    have hfilter : without es n = es := filter_eq_self.mpr fun e he => by
      simpa using (hmiss e he).symm
    obtain ⟨env, nxt, hfind⟩ := findOld_miss (a := []) (b := junk) (q := 0) hmiss hfuel rfl
    rw [nil_append, ← hmem] at hfind
    refine ⟨env, nxt, -1, mem, hfind, if_neg (by decide), ?_⟩
    rwa [hfilter]

theorem dataEnd_of_holds (h : Holds mem es) : ∃ env, dataEnd mem (mem.length + 1) 0 = some env ∧
    (if 0 < env then env + 1 else env) = (encode es).length := by
  obtain ⟨junk, rfl, hempty⟩ := h.bytes
  cases es with
  | nil =>
    obtain ⟨junk, rfl⟩ := hempty rfl
    exact ⟨0, rfl, rfl⟩
  | cons e es =>
    have hlen : 2 < (encode (e :: es)).length := two_lt_length_encode
    have hfuel : (encode (e :: es)).length ≤ (encode (e :: es) ++ 0 :: junk).length + 1 := by
      simp only [length_append]
      omega
    have hend := dataEnd_eq (a := []) (b := junk) (p := 0) packed_encode hfuel rfl
    refine ⟨_, hend, ?_⟩
    rw [if_pos (by omega)]
    omega

/-! ## Setting -/

/-- The entries once a name that has none was given a value, and the result of `set_env`. -/
def added (es : List Entry) (n : Name) (value : CStr) : ℤ × List Entry :=
  if h : value.bytes = [] then (0, es)
  else if cfgEnvDataSize < (encode es).length + n.bytes.length + value.bytes.length + 3 then (-1, es)
  else (0, es ++ [⟨n, value, h⟩])

theorem toInt_of_lt {k : ℕ} (h : k < 2 ^ 31) : toInt k = k :=
  Int.bmod_eq_of_le (by omega) (by omega)

theorem entryLen_eq (n value : CStr) :
    entryLen n.bytes value.bytes = n.bytes.length + value.bytes.length + 3 := by
  have hn := n.short
  have hv := value.short
  simp only [kmallocMaxSize] at hn hv
  have h₁ := toInt_of_lt (show n.bytes.length + 2 < 2 ^ 31 by omega)
  have h₂ := toInt_of_lt (show n.bytes.length + 2 + (value.bytes.length + 1) < 2 ^ 31 by omega)
  push_cast at h₁ h₂
  rw [entryLen, h₁, h₂]
  omega

theorem writeEnv_eq (s : Env) {env : ℕ} (n value : CStr) (delivered : Bool)
    (hlen : (a ++ b).length = cfgEnvSize - cfgEnvDataOffset) (henv : env + 1 = a.length)
    (hroom : a.length ≤ cfgEnvDataSize) :
    ∃ s' junk, writeEnv s (a ++ b) env n value delivered = some (0, s') ∧
      s'.initState = s.initState ∧ s'.valid = true ∧ s'.data = some (a ++ 0 :: junk) ∧
      (a ++ 0 :: junk).length = cfgEnvSize - cfgEnvDataOffset := by
  have hcap : cfgEnvDataSize = 16364 := rfl
  have hsize : cfgEnvSize - cfgEnvDataOffset = 16376 := rfl
  rw [hsize] at hlen ⊢
  rw [hcap] at hroom
  obtain ⟨x, b, rfl⟩ := exists_cons_of_length_pos
    (show 0 < b.length by rw [length_append] at hlen; omega)
  rw [length_append, length_cons] at hlen
  have hn : wsub 64 cfgEnvDataSize (env + 1) = 16364 - a.length := by
    rw [wsub_of_le (by omega) (by rw [hcap]; norm_num), hcap, henv]
  have hfill := fill_mid (b := (0 :: b).drop (16364 - a.length)) (x := (0 : Byte))
    (m := (0 :: b).take (16364 - a.length)) henv
    (show 16364 - a.length = ((0 :: b).take (16364 - a.length)).length by
      rw [length_take, length_cons]
      omega)
  rw [take_append_drop] at hfill
  have hjunk : ∃ junk, replicate (16364 - a.length) 0 ++ (0 :: b).drop (16364 - a.length) =
      0 :: junk := by
    cases 16364 - a.length with
    | zero => exact ⟨b, rfl⟩
    | succ k => exact ⟨_, by rw [replicate_succ, cons_append]⟩
  obtain ⟨junk, hjunk⟩ := hjunk
  have hlength := congrArg length hjunk
  simp only [length_append, length_replicate, length_drop, length_cons] at hlength
  rw [writeEnv]
  simp only [store_mid henv, Option.bind_eq_bind, Option.bind_some, hn, hfill, hjunk]
  refine ⟨_, junk, rfl, rfl, rfl, rfl, ?_⟩
  rw [length_append, length_cons]
  omega

theorem copy_entry (e : Entry) (ht : e.bytes.length ≤ b.length) (hp : p = a.length) :
    ∃ o r, copyStr (a ++ b) e.name.mem p =
        some (a ++ (e.name.bytes ++ 0 :: (o ++ r)), p + e.name.bytes.length) ∧
      store (a ++ (e.name.bytes ++ 0 :: (o ++ r))) (p + e.name.bytes.length) sep =
        some (a ++ e.name.bytes ++ [sep] ++ (o ++ r)) ∧
      copyStr (a ++ e.name.bytes ++ [sep] ++ (o ++ r)) e.value.mem (p + e.name.bytes.length + 1) =
        some (a ++ e.bytes ++ r, p + e.name.bytes.length + 1 + e.value.bytes.length) ∧
      (a ++ e.bytes ++ r).length = (a ++ b).length := by
  rw [e.length_bytes] at ht
  obtain ⟨o₁, t, rfl, ho₁⟩ := exists_split (show e.name.bytes.length + 1 ≤ b.length by omega)
  rw [length_append] at ht
  obtain ⟨o, r, rfl, ho⟩ := exists_split (show e.value.bytes.length + 1 ≤ t.length by omega)
  refine ⟨o, r, copyStr_eq e.name.noNul ho₁ hp, ?_, ?_, ?_⟩
  · rw [← append_assoc, store_mid (by simp [hp])]
    simp
  · have hcopy := copyStr_eq (a := a ++ e.name.bytes ++ [sep]) (b := r)
      (p := p + e.name.bytes.length + 1) e.value.noNul ho (by simp [hp, add_assoc])
    rw [CStr.mem, hcopy, Entry.bytes]
    simp
  · simp only [length_append, e.length_bytes, ho₁, ho]
    omega

theorem addEnv_eq (s : Env) (h : Holds mem es) (n : Name) (value : CStr) (delivered : Bool)
    (hmiss : ∀ e ∈ es, e.name ≠ n) :
    ∃ s' mem', addEnv s mem (encode es).length n.toCStr value delivered =
        some ((added es n value).1, s') ∧ s'.initState = s.initState ∧ s'.data = some mem' ∧
      Holds mem' (added es n value).2 ∧
      (s'.valid = true ∨ s'.valid = s.valid ∧ (added es n value).2 = es) := by
  obtain ⟨junk, hmem, hempty⟩ := h.bytes
  have hroom := h.room
  rw [addEnv]
  by_cases hv : value.bytes = []
  · have hadded : added es n value = (0, es) := dif_pos hv
    have hmem' : mem = encode es ++ [0] ++ junk := by rw [hmem]; simp
    obtain ⟨s', junk', hs', hstate, hvalid, hdata, hlen⟩ := writeEnv_eq s n.toCStr value delivered
      (hmem' ▸ h.length) (show (encode es).length + 1 = (encode es ++ [0]).length by simp)
      (by rw [length_append]; exact hroom)
    rw [if_pos hv, hadded, hmem']
    refine ⟨s', _, hs', hstate, hdata, ⟨hlen, hroom, ⟨0 :: junk', by simp, fun _ => ⟨_, rfl⟩⟩,
      h.nodup⟩, .inl hvalid⟩
  · rw [if_neg hv, entryLen_eq]
    by_cases hfull : cfgEnvDataSize < (encode es).length + n.bytes.length + value.bytes.length + 3
    · have hadded : added es n value = (-1, es) := by rw [added, dif_neg hv, if_pos hfull]
      rw [if_pos (by omega), hadded]
      exact ⟨_, mem, rfl, rfl, rfl, h, .inr ⟨rfl, rfl⟩⟩
    · have hadded : added es n value = (0, es ++ [⟨n, value, hv⟩]) := by
        rw [added, dif_neg hv, if_neg hfull]
      rw [if_neg (by omega), hadded]
      have hlen := h.length
      rw [hmem, length_append, show cfgEnvSize - cfgEnvDataOffset = 16376 from rfl] at hlen
      simp only [show cfgEnvDataSize = 16364 from rfl] at hfull
      have hbytes := Entry.length_bytes (e := ⟨n, value, hv⟩)
      simp only at hbytes
      obtain ⟨o, r, h₁, h₂, h₃, hlen'⟩ := copy_entry (a := encode es) (b := 0 :: junk)
        (p := (encode es).length) ⟨n, value, hv⟩ (by rw [hbytes]; omega) rfl
      obtain ⟨s', junk', hs', hstate, hvalid, hdata, hlength⟩ := writeEnv_eq s n.toCStr value delivered
        (hlen'.trans (length_append.trans hlen))
        (show (encode es).length + n.bytes.length + 1 + value.bytes.length + 1 =
          (encode es ++ Entry.bytes ⟨n, value, hv⟩).length by rw [length_append, hbytes]; omega)
        (by rw [length_append, hbytes, show cfgEnvDataSize = 16364 from rfl]; omega)
      rw [hmem, h₁]
      simp only [Option.bind_eq_bind, Option.bind_some, h₂, h₃]
      refine ⟨s', _, hs', hstate, hdata, ⟨hlength, ?_, ⟨junk', by simp, by simp⟩, ?_⟩, .inl hvalid⟩
      · simp only [encode_append, encode_cons, encode_nil, append_nil, length_append, hbytes,
          show cfgEnvDataSize = 16364 from rfl]
        omega
      · simpa [nodup_append, h.nodup] using hmiss

/-! ## Runs -/

def storeStep (es : List Entry) : Action → ℤ × List Entry
  | .setEnv n value _ => added (without es n) n value
  | _ => (0, es)

def storeRun (es : List Entry) : List Action → List ℤ × List Entry
  | [] => ([], es)
  | act :: acts =>
    let (ret, es) := storeStep es act
    let (rets, es) := storeRun es acts
    (ret :: rets, es)

structure Inv (s : Env) (es : List Entry) : Prop where
  initialised : s.initState ≠ .uninit
  holds : ∀ mem, s.data = some mem → Holds mem es
  valid : s.valid = true → s.data.isSome
  empty : s.valid = false → es = []

theorem without_ne : ∀ e ∈ without es n, e.name ≠ n := by
  intro e he
  simpa using (mem_filter.mp he).2

theorem getEnv_of_inv {s : Env} (h : Inv s es) (n : Name) : getEnv s n.mem = some (valueOf es n) := by
  cases hv : s.valid with
  | false =>
    rw [h.empty hv, getEnv, hv]
    rfl
  | true =>
    obtain ⟨mem, hmem⟩ := Option.isSome_iff_exists.mp (h.valid hv)
    exact getEnv_eq hv hmem (h.holds mem hmem) n

theorem setEnv_eq {s : Env} (h : Inv s es) (hs : s.data.isSome) (n : Name) (value : CStr)
    (delivered : Bool) :
    ∃ s', setEnv s n.toCStr value delivered = some ((added (without es n) n value).1, s') ∧
      Inv s' (added (without es n) n value).2 ∧ s'.data.isSome := by
  obtain ⟨mem, hmem⟩ := Option.isSome_iff_exists.mp hs
  have hholds := h.holds mem hmem
  -- both ways into `add` leave its result in the same form
  have hadd : ∀ mem' es', Holds mem' es' → (∀ e ∈ es', e.name ≠ n) → (s.valid = false → es' = []) →
      ∃ s', addEnv s mem' (encode es').length n.toCStr value delivered =
        some ((added es' n value).1, s') ∧ Inv s' (added es' n value).2 ∧ s'.data.isSome := by
    intro mem' es' h' hmiss hempty
    obtain ⟨s', mem'', hs', hstate, hdata, hholds', hvalid⟩ := addEnv_eq s h' n value delivered hmiss
    refine ⟨s', hs', ⟨hstate ▸ h.initialised, ?_, ?_, ?_⟩, by rw [hdata]; rfl⟩
    · intro m hm
      rw [hdata, Option.some_inj] at hm
      exact hm ▸ hholds'
    · intro _
      rw [hdata]
      rfl
    · intro hfalse
      obtain ht | ⟨hsame, hes⟩ := hvalid
      · rw [ht] at hfalse
        cases hfalse
      · rw [hes]
        exact hempty (hsame ▸ hfalse)
  rw [setEnv, if_neg h.initialised, hmem]
  cases hv : s.valid with
  | false =>
    obtain rfl := h.empty hv
    simp only [Bool.not_false, if_true]
    exact hadd mem [] hholds (by simp) fun _ => rfl
  | true =>
    obtain ⟨env, nxt, oldval, mem', hfind, hdel, hholds'⟩ := findOld_deleteOld hholds n
    obtain ⟨env', hend, hpos⟩ := dataEnd_of_holds hholds'
    have hkey := hadd mem' _ hholds' without_ne fun hfalse => by rw [hv] at hfalse; cases hfalse
    simp only [Bool.not_true, Bool.false_eq_true, if_false, Option.bind_eq_bind, hfind,
      Option.bind_some]
    by_cases hold : 0 < oldval
    · rw [if_pos hold] at hdel
      simpa only [if_pos hold, hdel, Option.bind_some, hend, hpos] using hkey
    · rw [if_neg hold, Option.some_inj] at hdel
      subst hdel
      simpa only [if_neg hold, Option.bind_some, hend, hpos] using hkey

/-- What the calls and their results say about each name. -/
def recorded (m : Name → Option (List Byte)) : Action × ℤ → Name → Option (List Byte)
  | (.setEnv n value _, ret) =>
    Function.update m n (if ret = 0 ∧ value.bytes ≠ [] then some value.bytes else none)
  | _ => m

theorem valueOf_without (m : Name) :
    valueOf (without es n) m = if m = n then none else valueOf es m := by
  rw [valueOf, without, find?_filter]
  split_ifs with hm
  · subst hm
    rw [find?_eq_none.mpr fun e _ => by simp]
    rfl
  · have hpred : (fun e : Entry => decide (decide (e.name ≠ n) = true ∧ decide (e.name = m) = true)) =
        fun e => decide (e.name = m) := by
      funext e
      by_cases he : e.name = m <;> simp [he, hm]
    rw [valueOf, ← hpred]

theorem valueOf_added (hmiss : ∀ e ∈ es, e.name ≠ n) (value : CStr) (m : Name) :
    valueOf (added es n value).2 m =
      if m = n then if (added es n value).1 = 0 ∧ value.bytes ≠ [] then some value.bytes else none
      else valueOf es m := by
  have hfind : es.find? (fun e => decide (e.name = n)) = none :=
    find?_eq_none.mpr fun e he => mt of_decide_eq_true (hmiss e he)
  rcases eq_or_ne m n with rfl | hm
  · rw [if_pos rfl, added]
    split_ifs <;> simp_all [valueOf, -find?_eq_none, find?_append]
  · rw [added, if_neg hm]
    split_ifs with hv hfull <;> simp [valueOf, find?_append, hm.symm]

theorem step_eq {s : Env} (h : Inv s es) (act : Action) :
    ∃ ret s' es', step s act = some (ret, s') ∧ Inv s' es' ∧
      valueOf es' = recorded (valueOf es) (act, ret) ∧ s'.data.isSome = s.data.isSome ∧
      (s.data.isSome → storeStep es act = (ret, es')) := by
  cases act with
  | userInit => exact ⟨0, _, es, rfl, ⟨by simp, h.holds, h.valid, h.empty⟩, rfl, rfl, fun _ => rfl⟩
  | setPid => exact ⟨0, _, es, rfl, ⟨by simp, h.holds, h.valid, h.empty⟩, rfl, rfl, fun _ => rfl⟩
  | setEnv n value delivered =>
    by_cases hs : s.data.isSome
    · obtain ⟨s', hset, hinv, hsome⟩ := setEnv_eq h hs n value delivered
      refine ⟨_, s', _, hset, hinv, ?_, by rw [hs, hsome], fun _ => rfl⟩
      funext m
      rw [valueOf_added without_ne, recorded, Function.update_apply, valueOf_without]
      split_ifs <;> rfl
    · have hnone : s.data = none := by simpa using hs
      have hempty : es = [] := by
        apply h.empty
        by_contra hv
        exact hs (h.valid (by simpa using hv))
      subst hempty
      refine ⟨-1, s, [], by rw [step, setEnv, if_neg h.initialised, hnone], h, ?_, rfl,
        fun hs' => absurd hs' hs⟩
      funext m
      simp [recorded, Function.update_apply, valueOf]

theorem run_eq {s : Env} (h : Inv s es) (acts : List Action) :
    ∃ rets s' es', run s acts = some (rets, s') ∧ Inv s' es' ∧
      valueOf es' = (acts.zip rets).foldl recorded (valueOf es) ∧
      (s.data.isSome → storeRun es acts = (rets, es')) := by
  induction acts generalizing s es with
  | nil => exact ⟨[], s, es, rfl, h, rfl, fun _ => rfl⟩
  | cons act acts ih =>
    obtain ⟨ret, s₁, es₁, hstep, h₁, hval, hsome, hstore⟩ := step_eq h act
    obtain ⟨rets, s', es', hrun, h', hvals, hstores⟩ := ih h₁
    refine ⟨ret :: rets, s', es', ?_, h', ?_, fun hs => ?_⟩
    · rw [run, hstep]
      simp only [Option.bind_eq_bind, Option.bind_some, hrun]
    · rw [hvals, hval]
      rfl
    · rw [storeRun, hstore hs]
      simp only [hstores (hsome ▸ hs)]

def start (allocated ready : Bool) : Env :=
  { envInit allocated with initState := if ready then .ready else .init }

theorem inv_start (allocated ready : Bool) : Inv (start allocated ready) [] := by
  refine ⟨by cases ready <;> simp [start], fun mem hmem => ?_, by simp [start, envInit], fun _ => rfl⟩
  cases allocated with
  | false => simp [start, envInit] at hmem
  | true =>
    have hrep : mem = replicate (cfgEnvSize - cfgEnvDataOffset) 0 := by
      simpa [start, envInit] using hmem.symm
    subst hrep
    exact ⟨length_replicate, by decide, ⟨_, replicate_succ, fun _ => ⟨_, replicate_succ⟩⟩,
      nodup_nil⟩

/-- The buffer is a finite map: `get_env` answers as the calls and their results say, and a call
fails exactly when its entry does not fit. -/
theorem run_refines (allocated ready : Bool) (acts : List Action) :
    ∃ rets s es, run (start allocated ready) acts = some (rets, s) ∧
      (∀ n : Name, getEnv s n.mem = some ((acts.zip rets).foldl recorded (fun _ => none) n)) ∧
      (∀ mem, s.data = some mem → Holds mem es) ∧
      (allocated = true → storeRun [] acts = (rets, es)) := by
  obtain ⟨rets, s, es, hrun, h, hval, hstore⟩ := run_eq (inv_start allocated ready) acts
  refine ⟨rets, s, es, hrun, fun n => ?_, h.holds, fun ha => hstore ?_⟩
  · rw [getEnv_of_inv h, hval]
    rfl
  · rw [ha]
    rfl

end Cupcake.Sysenv
