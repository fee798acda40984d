import Pclsync.Crypto.FileKeys
import Mathlib.Data.List.GetD
import Mathlib.Data.List.Nodup

/-! What holds in every run of look-ups of file keys, and how each of its conditions is needed. -/
namespace Pclsync.Crypto.FileKeys
open Lib.Transition

variable {B K : Type} {s s' : State B K}

/-! ### Names -/

theorem base64Table_nodup : base64Table.Nodup := by decide

theorem digit_injective {a b : ℕ} (ha : a < 64) (hb : b < 64) (h : base64Table.getD a 'A' = base64Table.getD b 'A') : a = b := by
  have hlength : base64Table.length = 64 := by decide
  rw [List.getD_eq_getElem _ _ (hlength ▸ ha), List.getD_eq_getElem _ _ (hlength ▸ hb)] at h
  exact (List.Nodup.getElem_inj_iff base64Table_nodup).mp h

theorem digit_ne_dot (a : ℕ) : base64Table.getD a 'A' ≠ '.' := by
  have hdot : '.' ∉ base64Table := by decide
  by_cases ha : a < base64Table.length
  · rw [List.getD_eq_getElem _ _ ha]
    exact fun heq => hdot (heq ▸ List.getElem_mem ha)
  · rw [List.getD_eq_default _ _ (Nat.not_lt.mp ha)]
    decide

theorem dot_notMem_digitsFrom (rounds id : ℕ) : '.' ∉ digitsFrom rounds id := by
  induction rounds generalizing id with
  | zero => exact List.not_mem_nil
  | succ rounds ih =>
    rw [digitsFrom]
    refine List.not_mem_cons_of_ne_of_not_mem (digit_ne_dot _).symm ?_
    split_ifs
    · exact List.not_mem_nil
    · exact ih _

theorem digitsFrom_ne_nil (rounds id : ℕ) : digitsFrom (rounds + 1) id ≠ [] := List.cons_ne_nil _ _

/-- The digits tell the id. -/
theorem digitsFrom_injective {rounds rounds' id id' : ℕ} (hid : id < rounds) (hid' : id' < rounds')
    (h : digitsFrom rounds id = digitsFrom rounds' id') : id = id' := by
  induction rounds generalizing rounds' id id' with
  | zero => exact absurd hid (Nat.not_lt_zero id)
  | succ rounds ih =>
    obtain ⟨rounds', rfl⟩ := Nat.exists_eq_add_of_lt (Nat.zero_lt_of_lt hid')
    rw [Nat.zero_add] at hid' h
    rw [digitsFrom, digitsFrom] at h
    obtain ⟨hdigit, hrest⟩ := List.cons.inj h
    have hmod := digit_injective (Nat.mod_lt _ (by decide)) (Nat.mod_lt _ (by decide)) hdigit
    have hdiv : id / 64 = id' / 64 := by
      by_cases hzero : id / 64 = 0
      · by_cases hzero' : id' / 64 = 0
        · rw [hzero, hzero']
        · rw [if_pos hzero, if_neg hzero'] at hrest
          cases rounds' with
          | zero => omega
          | succ rounds' => exact absurd hrest.symm (digitsFrom_ne_nil _ _)
      · by_cases hzero' : id' / 64 = 0
        · rw [if_neg hzero, if_pos hzero'] at hrest
          cases rounds with
          | zero => omega
          | succ rounds => exact absurd hrest (digitsFrom_ne_nil _ _)
        · rw [if_neg hzero, if_neg hzero'] at hrest
          exact ih (by omega) (by omega) hrest
    omega

theorem digits_injective {id id' : ℕ} (h : digits id = digits id') : id = id' :=
  digitsFrom_injective (Nat.lt_succ_self id) (Nat.lt_succ_self id') h

/-- A name of two ids tells both. -/
theorem stringId2_injective {strPrefix : List Char} {f f' hash hash' : ℕ} (h : stringId2 strPrefix f hash = stringId2 strPrefix f' hash') :
    f = f' ∧ hash = hash' := by
  rw [stringId2, stringId2, List.append_assoc, List.append_assoc, List.append_cancel_left_eq] at h
  obtain ⟨hf, hhash⟩ := List.append_cons_inj_of_notMem (dot_notMem_digitsFrom _ _) (dot_notMem_digitsFrom _ _) |>.mp h
  exact ⟨digits_injective hf, digits_injective hhash.2⟩

theorem dkey_ne_seen {f f' hash hash' : ℕ} : stringId2 dkey f hash ≠ stringId2 seen f' hash' := by
  intro h
  have hhead := congrArg List.head? h
  simp [stringId2, dkey, seen] at hhead

/-! ### What is kept -/

section
variable (decrypt : B → Option (SymKey K))

/-- An element of the cache is the key or the encoder of its revision. -/
def State.Genuine (s : State B K) (e : List Char × Element K) : Prop :=
  (∃ f hash key, e = (stringId2 dkey f hash, .symkey (some key)) ∧ decrypt (s.server f hash) = some key) ∨
  ∃ f hash key, e = (stringId2 seen f hash, .encoder key) ∧ s.belongs decrypt f hash = some key

structure State.Sound (s : State B K) : Prop where
  cache : ∀ e ∈ s.cache, s.Genuine decrypt e
  table : ∀ f hash enckey, s.cryptofilekey f hash = some enckey → enckey = s.server f hash
  past : ∀ r ∈ s.past, r.2 = some r.1
  added : ∀ e ∈ s.added, e ≠ .symkey none

end

variable {decrypt : B → Option (SymKey K)} {f hash : ℕ}

theorem State.Genuine.ne_failed {e : List Char × Element K} (h : s.Genuine decrypt e) : e.2 ≠ .symkey none := by
  intro hfailed
  rcases h with ⟨f, hash, key, rfl, -⟩ | ⟨f, hash, key, rfl, -⟩
  · cases hfailed
  · cases hfailed

theorem State.Genuine.symkey {v : Element K} (h : s.Genuine decrypt (stringId2 dkey f hash, v)) :
    ∃ key, v = .symkey (some key) ∧ decrypt (s.server f hash) = some key := by
  rcases h with ⟨f', hash', key, heq, hkey⟩ | ⟨f', hash', key, heq, -⟩
  · obtain ⟨hname, rfl⟩ := Prod.mk.inj heq
    obtain ⟨rfl, rfl⟩ := stringId2_injective hname
    exact ⟨key, rfl, hkey⟩
  · exact absurd (Prod.mk.inj heq).1 dkey_ne_seen

theorem State.Genuine.encoder {v : Element K} (h : s.Genuine decrypt (stringId2 seen f hash, v)) :
    ∃ key, v = .encoder key ∧ s.belongs decrypt f hash = some key := by
  rcases h with ⟨f', hash', key, heq, -⟩ | ⟨f', hash', key, heq, hkey⟩
  · exact absurd (Prod.mk.inj heq).1.symm dkey_ne_seen
  · obtain ⟨hname, rfl⟩ := Prod.mk.inj heq
    obtain ⟨rfl, rfl⟩ := stringId2_injective hname
    exact ⟨key, rfl, hkey⟩

/-! ### The cache -/

theorem cacheGet_some {name : List Char} {v : Element K} {cache : List (List Char × Element K)} (h : (cacheGet name cache).1 = some v) :
    (name, v) ∈ cache := by
  obtain ⟨e, hfind, rfl⟩ := Option.map_eq_some_iff.mp h
  obtain ⟨hname, -⟩ := List.find?_eq_some_iff_append.mp hfind
  rw [← of_decide_eq_true hname]
  exact List.mem_of_find?_eq_some hfind

theorem cacheGet_none {name : List Char} {cache : List (List Char × Element K)} (h : (cacheGet name cache).1 = none) :
    ∀ e ∈ cache, e.1 ≠ name := by
  intro e he hname
  exact List.find?_eq_none.mp (Option.map_eq_none_iff.mp h) e he (decide_eq_true hname)

theorem mem_of_mem_cacheGet {name : List Char} {cache : List (List Char × Element K)} {e : List Char × Element K}
    (h : e ∈ (cacheGet name cache).2) : e ∈ cache := List.mem_of_mem_eraseP h

/-- An element with another name stays. -/
theorem mem_cacheGet_of_ne {name : List Char} {cache : List (List Char × Element K)} {e : List Char × Element K} (he : e ∈ cache)
    (hne : e.1 ≠ name) : e ∈ (cacheGet name cache).2 := (List.mem_eraseP_of_neg (by simpa using hne)).mpr he

/-- After an element was added one with its name is there. -/
theorem exists_mem_cacheAdd (s : State B K) (name : List Char) (v : Element K) {maxkeys : ℕ} (hmax : 0 < maxkeys) :
    ∃ e ∈ (s.cacheAdd name v maxkeys).cache, e.1 = name := by
  rw [State.cacheAdd]
  split_ifs with hfull
  · obtain ⟨e, he⟩ := List.exists_mem_of_length_pos (Nat.lt_of_lt_of_le hmax hfull)
    obtain ⟨hmem, hname⟩ := List.mem_filter.mp he
    exact ⟨e, hmem, of_decide_eq_true hname⟩
  · exact ⟨_, List.mem_cons_self, rfl⟩

/-! ### Look-ups -/

/-- What a look-up leaves as it is; it adds threads that save keys. -/
structure State.Looked (decrypt : B → Option (SymKey K)) (s s' : State B K) : Prop where
  sound : s'.Sound decrypt
  server : s'.server = s.server
  fstask : s'.fstask = s.fstask

/-- Another cache. -/
theorem State.Sound.withCache (hs : s.Sound decrypt) {cache : List (List Char × Element K)} (h : ∀ e ∈ cache, s.Genuine decrypt e) :
    s.Looked decrypt { s with cache := cache } := ⟨⟨h, hs.table, hs.past, hs.added⟩, rfl, rfl⟩

theorem State.Sound.cacheAdd (hs : s.Sound decrypt) {name : List Char} {v : Element K} (h : s.Genuine decrypt (name, v)) (maxkeys : ℕ) :
    s.Looked decrypt (s.cacheAdd name v maxkeys) := by
  rw [State.cacheAdd]
  split_ifs
  · exact ⟨hs, rfl, rfl⟩
  · exact ⟨⟨List.forall_mem_cons.mpr ⟨h, hs.cache⟩, hs.table, hs.past, List.forall_mem_cons.mpr ⟨h.ne_failed, hs.added⟩⟩, rfl, rfl⟩

theorem State.Looked.trans {s'' : State B K} (h : s.Looked decrypt s') (h' : s'.Looked decrypt s'') : s.Looked decrypt s'' :=
  ⟨h'.sound, h'.server.trans h.server, h'.fstask.trans h.fstask⟩

theorem decrypted_symkey {enckey : B} {key : SymKey K} (h : decrypted decrypt enckey = .symkey key) : decrypt enckey = some key := by
  rw [decrypted] at h
  split at h
  · next key' hkey =>
    cases h
    exact hkey
  · cases h

/-- A key that is looked up belongs to the revision, where the server is not asked or answers for it. -/
theorem getFileSymkey_spec (hs : s.Sound decrypt) {nonetwork : Bool} {current : Option ℕ}
    (hgood : s.Asks f hash nonetwork → ∀ c ∈ current, c = hash) :
    s.Looked decrypt (s.getFileSymkey decrypt f hash nonetwork current).2 ∧
      ∀ key, (s.getFileSymkey decrypt f hash nonetwork current).1 = .symkey key → decrypt (s.server f hash) = some key := by
  have hlooked : s.Looked decrypt { s with cache := (cacheGet (stringId2 dkey f hash) s.cache).2 } :=
    hs.withCache fun e he => hs.cache e (mem_of_mem_cacheGet he)
  rw [State.getFileSymkey]
  cases hget : (cacheGet (stringId2 dkey f hash) s.cache).1 with
  | some v =>
    obtain ⟨key, rfl, hkey⟩ := (hs.cache _ (cacheGet_some hget)).symkey
    simp only
    rw [hget]
    exact ⟨hlooked, fun key' h => by cases h; exact hkey⟩
  | none =>
    have habsent := cacheGet_none hget
    simp only
    rw [hget]
    show (State.Looked decrypt s (State.getFileEncKey decrypt _ f hash nonetwork current).2) ∧ _
    rw [State.getFileEncKey]
    split
    · next enckey hrow =>
      refine ⟨hlooked, fun key h => ?_⟩
      rw [← hs.table f hash enckey hrow]
      exact decrypted_symkey h
    · next hrow =>
      split_ifs with hnonetwork
      · exact ⟨hlooked, fun key h => by cases h⟩
      · cases current with
        | none => exact ⟨hlooked, fun key h => by cases h⟩
        | some c =>
          obtain rfl := hgood ⟨habsent, hrow, Bool.eq_false_iff.mpr hnonetwork⟩ c rfl
          exact ⟨⟨⟨hlooked.sound.cache, hlooked.sound.table, hlooked.sound.past, hlooked.sound.added⟩, rfl, rfl⟩, fun key h => decrypted_symkey h⟩

theorem getFileEncoderLocked_spec (hs : s.Sound decrypt) {nonetwork : Bool} {current : Option ℕ}
    (hgood : s.Asks f hash nonetwork → ∀ c ∈ current, c = hash) :
    s.Looked decrypt (s.getFileEncoderLocked decrypt f hash nonetwork current).2 ∧
      ∀ key, (s.getFileEncoderLocked decrypt f hash nonetwork current).1 = .encoder key → s.belongs decrypt f hash = some key := by
  obtain ⟨hlooked, hkey⟩ := getFileSymkey_spec hs hgood
  rw [State.getFileEncoderLocked]
  split
  · next key s' heq =>
    rw [heq] at hlooked hkey
    have hdecrypt := hkey key rfl
    split
    · next real hreal =>
      refine ⟨hlooked.trans (hlooked.sound.cacheAdd (.inl ⟨f, hash, key, rfl, ?_⟩) 2), fun key' h => ?_⟩
      · rw [hlooked.server]
        exact hdecrypt
      · cases h
        rw [State.belongs, hdecrypt]
        exact hreal
    · exact ⟨hlooked, fun key' h => by cases h⟩
  · next s' heq =>
    rw [heq] at hlooked
    exact ⟨hlooked, fun key h => by cases h⟩
  · next s' heq =>
    rw [heq] at hlooked
    exact ⟨hlooked, fun key h => by cases h⟩

/-- A look-up that does not go wrong returns the encoder that is asked for. -/
theorem getFileEncoder_spec (hs : s.Sound decrypt) {fileid : ℤ} {nonetwork : Bool} {current : Option ℕ}
    (hgood : ¬Bad decrypt s (.getFileEncoder fileid hash nonetwork current)) :
    s.Looked decrypt (s.getFileEncoder decrypt fileid hash nonetwork current).2 ∧
      ∀ key, (s.getFileEncoder decrypt fileid hash nonetwork current).1 = .encoder key → s.due decrypt fileid hash = some key := by
  have hself : s.Looked decrypt s := ⟨hs, rfl, rfl⟩
  rw [State.getFileEncoder]
  by_cases hstarted : s.started = true
  swap
  · rw [if_neg hstarted]
    exact ⟨hself, fun key h => by cases h⟩
  rw [if_pos hstarted]
  by_cases hpos : 0 ≤ fileid
  · rw [if_pos hpos]
    have hlooked : s.Looked decrypt { s with cache := (cacheGet (stringId2 seen fileid.toNat hash) s.cache).2 } :=
      hs.withCache fun e he => hs.cache e (mem_of_mem_cacheGet he)
    have hdue : s.due decrypt fileid hash = s.belongs decrypt fileid.toNat hash := if_pos hpos
    rw [hdue]
    cases hget : (cacheGet (stringId2 seen fileid.toNat hash) s.cache).1 with
    | some v =>
      obtain ⟨key, rfl, hkey⟩ := (hs.cache _ (cacheGet_some hget)).encoder
      simp only
      rw [hget]
      exact ⟨hlooked, fun key' h => by cases h; exact hkey⟩
    | none =>
      have habsent := cacheGet_none hget
      simp only
      rw [hget]
      by_cases hfile : 0 < fileid
      · simp only [if_pos hfile]
        have hasked : State.Asks { s with cache := (cacheGet (stringId2 seen fileid.toNat hash) s.cache).2 } fileid.toNat hash nonetwork →
            ∀ c ∈ current, c = hash := fun hasks c hc => by
          by_contra hne
          refine hgood (.inl ⟨hfile, habsent, ⟨fun e he => ?_, hasks.2⟩, c, hc, hne⟩)
          intro hname
          exact hasks.1 e (mem_cacheGet_of_ne he (hname ▸ dkey_ne_seen)) hname
        obtain ⟨hlooked', hkey⟩ := getFileEncoderLocked_spec hlooked.sound hasked
        exact ⟨hlooked.trans hlooked', hkey⟩
      · simp only [if_neg hfile]
        exact ⟨hlooked, fun key h => by cases h⟩
  · rw [if_neg hpos]
    have hneg : fileid < 0 := Int.not_le.mp hpos
    rw [State.due, if_neg hpos, State.getTempFileEncoderLocked]
    cases htask : s.fstask (-fileid).toNat with
    | none => exact ⟨hself, fun key h => by cases h⟩
    | some task =>
      cases task with
      | creat text2 =>
        simp only
        split
        · next real hreal => exact ⟨hself, fun key h => by cases h; exact hreal⟩
        · exact ⟨hself, fun key h => by cases h⟩
      | modify f int1 int2 =>
        have hsame : int1 = int2 := by
          by_contra hne
          exact hgood (.inr ⟨hneg, f, int1, int2, htask, .inl hne⟩)
        subst hsame
        exact getFileEncoderLocked_spec hs fun hasks c hc => by
          by_contra hne
          exact hgood (.inr ⟨hneg, f, int1, int1, htask, .inr ⟨hasks, c, hc, hne⟩⟩)
      | other => exact ⟨hself, fun key h => by cases h⟩

/-- A key that came with an answer is cached, and found. -/
theorem getFileEncoderFromBinresult_spec (hs : s.Sound decrypt) {current : Option ℕ} (hgood : ¬Bad decrypt s (.fromBinresult f hash current)) :
    s.Looked decrypt (s.getFileEncoderFromBinresult decrypt f hash current).2 ∧
      ∀ key, (s.getFileEncoderFromBinresult decrypt f hash current).1 = .encoder key → s.belongs decrypt f hash = some key := by
  have hsaved : s.Looked decrypt { s with saves := (f, hash, s.server f hash) :: s.saves } := ⟨⟨hs.cache, hs.table, hs.past, hs.added⟩, rfl, rfl⟩
  rw [State.getFileEncoderFromBinresult]
  dsimp only
  by_cases hstarted : s.started = true
  swap
  · rw [if_neg hstarted]
    exact ⟨hsaved, fun key h => (nomatch h)⟩
  rw [if_pos hstarted]
  cases hkey : decrypt (s.server f hash) with
  | none => exact absurd ⟨hstarted, hkey⟩ hgood
  | some key =>
    have hcached := hsaved.trans (hsaved.sound.cacheAdd (.inl ⟨f, hash, key, rfl, hkey⟩) 2)
    obtain ⟨e, he, hname⟩ := exists_mem_cacheAdd { s with saves := (f, hash, s.server f hash) :: s.saves } (stringId2 dkey f hash)
      (.symkey (some key)) Nat.two_pos
    have hfound : (State.cacheAdd _ _ _ _).Asks f hash false → ∀ c ∈ current, c = hash := fun hasks => absurd hname (hasks.1 e he)
    obtain ⟨hlooked, hreturned⟩ := getFileEncoderLocked_spec hcached.sound hfound
    refine ⟨hcached.trans hlooked, fun key h => ?_⟩
    have hbelongs := hreturned key h
    rw [State.belongs, hcached.server] at hbelongs
    exact hbelongs

/-! ### Steps -/

/-- An encoder that is the right one is returned. -/
theorem State.Looked.returned (h : s.Looked decrypt s') {ret : Ret K} {due : Option K} (hret : ∀ key, ret = .encoder key → due = some key) :
    s.Looked decrypt (s'.returned ret due) := by
  cases ret with
  | encoder key =>
    exact ⟨⟨h.sound.cache, h.sound.table, List.forall_mem_cons.mpr ⟨hret key rfl, h.sound.past⟩, h.sound.added⟩, h.server, h.fstask⟩
  | unloaded => exact h
  | error => exact h

theorem State.Looked.handOut (h : s.Looked decrypt s') (ret : Ret K) (f hash : ℕ) : s.Looked decrypt (s'.handOut ret f hash) := by
  cases ret with
  | encoder key => exact ⟨⟨h.sound.cache, h.sound.table, h.sound.past, h.sound.added⟩, h.server, h.fstask⟩
  | unloaded => exact h
  | error => exact h

theorem setKeyAt_same {α : Type} (table : ℕ → ℕ → α) (f hash : ℕ) (a : α) : setKeyAt table f hash a f hash = a := by
  rw [setKeyAt, Function.update_self, Function.update_self]

theorem setKeyAt_of_ne {α : Type} (table : ℕ → ℕ → α) {f hash f' hash' : ℕ} (a : α) (hne : ¬(f' = f ∧ hash' = hash)) :
    setKeyAt table f hash a f' hash' = table f' hash' := by
  rw [setKeyAt]
  by_cases hf : f' = f
  · subst hf
    rw [Function.update_self, Function.update_of_ne fun hhash => hne ⟨rfl, hhash⟩]
  · rw [Function.update_of_ne hf]

/-- A table that agrees with another one does so after the same change of both. -/
theorem setKeyAt_agrees {table : ℕ → ℕ → Option B} {server : ℕ → ℕ → B} (h : ∀ f hash enckey, table f hash = some enckey → enckey = server f hash)
    (f hash : ℕ) {enckey : B} {server' : ℕ → ℕ → B} (hat : server' f hash = enckey)
    (hother : ∀ f' hash', ¬(f' = f ∧ hash' = hash) → server' f' hash' = server f' hash') :
    ∀ f' hash' enckey', setKeyAt table f hash (some enckey) f' hash' = some enckey' → enckey' = server' f' hash' := by
  intro f' hash' enckey' hrow
  by_cases hsame : f' = f ∧ hash' = hash
  · obtain ⟨rfl, rfl⟩ := hsame
    rw [setKeyAt_same] at hrow
    cases hrow
    exact hat.symm
  · rw [setKeyAt_of_ne _ _ hsame] at hrow
    rw [hother f' hash' hsame]
    exact h f' hash' enckey' hrow

/-- A new key for a revision whose cached keys and encoders are of the same key. -/
theorem setKeyForFileid_sound (hs : s.Sound decrypt) {enckey : Option B} (hgood : ¬Bad decrypt s (.setKey f hash enckey)) :
    (s.setKeyForFileid f hash enckey).Sound decrypt := by
  cases enckey with
  | none => exact ⟨fun e he => hs.cache e (List.mem_of_mem_filter he), hs.table, hs.past, hs.added⟩
  | some enckey =>
    refine ⟨fun e he => ?_, setKeyAt_agrees hs.table f hash (setKeyAt_same _ _ _ _) fun f' hash' => setKeyAt_of_ne _ _, hs.past, hs.added⟩
    have hmem := List.mem_of_mem_filter he
    rcases hs.cache e hmem with ⟨f', hash', key, rfl, hkey⟩ | ⟨f', hash', key, rfl, hkey⟩
    · refine .inl ⟨f', hash', key, rfl, ?_⟩
      show decrypt (setKeyAt s.server f hash enckey f' hash') = some key
      by_cases hsame : f' = f ∧ hash' = hash
      · obtain ⟨rfl, rfl⟩ := hsame
        rw [setKeyAt_same]
        by_contra hne
        exact hgood (.inl ⟨some key, hmem, fun heq => hne heq.symm⟩)
      · rw [setKeyAt_of_ne _ _ hsame]
        exact hkey
    · refine .inr ⟨f', hash', key, rfl, ?_⟩
      show (decrypt (setKeyAt s.server f hash enckey f' hash')).bind SymKey.fileKey = some key
      by_cases hsame : f' = f ∧ hash' = hash
      · obtain ⟨rfl, rfl⟩ := hsame
        rw [setKeyAt_same]
        by_contra hne
        exact hgood (.inr ⟨key, hmem, hne⟩)
      · rw [setKeyAt_of_ne _ _ hsame]
        exact hkey

variable [DecidableEq B] [DecidableEq K]

theorem State.Sound.step (hs : s.Sound decrypt) {a : Action B K} (hgood : ¬Bad decrypt s a) (hstep : step decrypt s a s') : s'.Sound decrypt := by
  cases a with
  | getFileEncoder fileid hash nonetwork current =>
    obtain ⟨hlooked, hret⟩ := getFileEncoder_spec hs hgood
    have hreturned := hlooked.returned hret
    change some (if 0 < fileid then State.handOut _ _ _ _ else _) = some s' at hstep
    by_cases hfile : 0 < fileid
    · rw [if_pos hfile] at hstep
      exact Option.some.inj hstep ▸ (hreturned.handOut _ _ _).sound
    · rw [if_neg hfile] at hstep
      exact Option.some.inj hstep ▸ hreturned.sound
  | fromBinresult f hash current =>
    obtain ⟨hlooked, hret⟩ := getFileEncoderFromBinresult_spec hs hgood
    cases Option.some.inj hstep
    exact ((hlooked.returned hret).handOut _ _ _).sound
  | release f hash key =>
    change (if (f, hash, key) ∈ s.held then _ else none) = some s' at hstep
    split at hstep
    swap
    · cases hstep
    cases Option.some.inj hstep
    split_ifs with hstarted
    · have hreleased : State.Sound decrypt { s with held := s.held.erase (f, hash, key) } := ⟨hs.cache, hs.table, hs.past, hs.added⟩
      refine (hreleased.cacheAdd (.inr ⟨f, hash, key, rfl, ?_⟩) 2).sound
      by_contra hne
      exact hgood ⟨hstarted, hne⟩
    · exact ⟨hs.cache, hs.table, hs.past, hs.added⟩
  | setKey f hash enckey =>
    cases Option.some.inj hstep
    exact setKeyForFileid_sound hs hgood
  | save f hash enckey =>
    change (if (f, hash, enckey) ∈ s.saves then _ else none) = some s' at hstep
    split at hstep
    swap
    · cases hstep
    cases Option.some.inj hstep
    exact ⟨hs.cache, setKeyAt_agrees hs.table f hash (not_not.mp hgood).symm fun _ _ _ => rfl, hs.past, hs.added⟩
  | expire i =>
    cases Option.some.inj hstep
    exact ⟨fun e he => hs.cache e (List.mem_of_mem_eraseIdx he), hs.table, hs.past, hs.added⟩
  | addModified taskid f hash =>
    simp only [FileKeys.step, run] at hstep
    split at hstep
    · cases Option.some.inj hstep
      exact ⟨hs.cache, hs.table, hs.past, hs.added⟩
    · cases hstep
  | addCreat taskid text2 =>
    simp only [FileKeys.step, run] at hstep
    split at hstep
    · cases Option.some.inj hstep
      exact ⟨hs.cache, hs.table, hs.past, hs.added⟩
    · cases hstep
  | written taskid =>
    simp only [FileKeys.step, run] at hstep
    split at hstep
    · cases Option.some.inj hstep
      exact ⟨hs.cache, hs.table, hs.past, hs.added⟩
    · cases hstep
  | removeTask taskid =>
    cases Option.some.inj hstep
    exact ⟨hs.cache, hs.table, hs.past, hs.added⟩

omit [DecidableEq B] [DecidableEq K] in
theorem Start.sound (hs : Start s) : s.Sound decrypt :=
  ⟨fun _ he => absurd (hs.cache ▸ he) List.not_mem_nil, hs.table, fun _ hr => absurd (hs.past ▸ hr) List.not_mem_nil,
    fun _ he => absurd (hs.added ▸ he) List.not_mem_nil⟩

/-- In a run without such a step every encoder is the one that was asked for. -/
theorem keys_exact (hr : Reachable Start (Avoiding (step decrypt) (Bad decrypt)) s) : s.Right := by
  have hsound : s.Sound decrypt := hr.invariant (fun _ => Start.sound) fun _ _ _ hs hstep => hs.step hstep.2 hstep.1
  exact ⟨hsound.past, hsound.added⟩

/-- The server before anything is asked: the key of a revision is its hash, and `0` cannot be decrypted. -/
def fresh : State ℕ ℕ := ⟨true, [], fun _ _ => none, [], fun _ => none, [], fun _ hash => hash, [], []⟩

def decode : ℕ → Option (SymKey ℕ)
  | 0 => none
  | b + 1 => some ⟨true, true, false, b + 1⟩

theorem fresh_start : Start fresh := ⟨rfl, rfl, rfl, rfl, rfl, fun _ _ _ h => (nomatch h)⟩

/-- A look-up of the revision that is current. -/
theorem keys_exact_current : ((run decode fresh (.getFileEncoder 1 10 false (some 10))).get rfl).Right := by
  refine keys_exact (.next (.start fresh_start) ⟨(Option.some_get _).symm, ?_⟩)
  rintro (⟨-, -, -, c, hc, hne⟩ | ⟨hneg, -⟩)
  · exact hne (Option.some.inj hc).symm
  · exact absurd hneg (by decide)

/-- The server answers with another revision than the one that is asked for; the hash of a task is taken from its
write counter, while the row of its revision is there; a failed decryption is cached; and the key before
`set_key_for_fileid` is found in the cache, or saved after it. -/
theorem keys_mistaken : Start fresh ∧
    ([Action.getFileEncoder 1 10 false (some 11)].foldlM (run decode) fresh).map State.past = some [(11, some 10)] ∧
    ([Action.getFileEncoder 1 10 false (some 10), .save 1 10 10, .addModified 5 1 10, .getFileEncoder (-5) 0 false (some 11)].foldlM
      (run decode) fresh).map State.past = some [(11, some 10), (10, some 10)] ∧
    ([Action.fromBinresult 1 0 none].foldlM (run decode) fresh).map State.added = some [.symkey none] ∧
    ([Action.getFileEncoder 1 10 false (some 10), .setKey 1 10 (some 12), .getFileEncoder 1 10 true none].foldlM
      (run decode) fresh).map State.past = some [(10, some 12), (10, some 10)] ∧
    ([Action.getFileEncoder 1 10 false (some 10), .setKey 1 10 (some 12), .save 1 10 10, .expire 0, .getFileEncoder 1 10 true none].foldlM
      (run decode) fresh).map State.past = some [(10, some 12), (10, some 10)] := ⟨fresh_start, rfl, rfl, rfl, rfl, rfl⟩

end Pclsync.Crypto.FileKeys
