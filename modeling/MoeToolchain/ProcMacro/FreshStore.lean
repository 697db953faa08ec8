import MoeToolchain.ProcMacro.ErrorTexts
import MoeToolchain.ProcMacro.ScanBounds

/-!
# The lexer on a fresh string store

The lexer writes the string store before it reads from it. Only the text that an error
leaves behind goes on into bytes that were there before, so that the tokens of a text are
the same for any store but for such texts, and for these as far as `SameTokens` says.

Main result:

* `lexesAlike_iff`: the lexer reads the tokens of a text, whatever is in the store and
  behind the text in memory, when the literals of the text are closed, and only then.
-/

namespace MoeToolchain
set_option autoImplicit false
open Lib

namespace Stb

/-- The same call on stores of one size; `known` says that their first bytes are the same. -/
structure Scan.Alike (known : Bool) (s s' : Scan) : Prop where
  token : SameTokens known [s.token] [s'.token]
  next : s'.next = s.next
  size : s'.store.length = s.store.length
  first : (known || s.token.isLong) = true → s'.store.take 8 = s.store.take 8

section Calls

variable {known : Bool} {input : Input} {strtod : Nat → BitVec 64 × Nat} {len fuel p q n : Nat}
  {store store' : Bytes} {s : Scan}

/-- One more byte that is written is one more byte that is the same. -/
theorem take_set_same (b : UInt8) (size : store'.length = store.length) (written : store'.take n = store.take n) :
    (store'.set n b).take (n + 1) = (store.set n b).take (n + 1) := by
  refine List.ext_getElem? fun i => ?_
  have before : i < n → store'[i]? = store[i]? := by
    intro less
    have here := congrArg (fun bytes : Bytes => bytes[i]?) written
    simpa only [List.getElem?_take, if_pos less] using here
  rw [List.getElem?_take, List.getElem?_take, List.getElem?_set, List.getElem?_set, size]
  split
  · split
    · rfl
    · exact before (by omega)
  · rfl

theorem take_set_first (i : Nat) (b : UInt8) (first : known = true → store'.take 8 = store.take 8) :
    known = true → (store'.set i b).take 8 = (store.set i b).take 8 := by
  intro known'
  rw [List.take_set, List.take_set, first known']

/-- The first bytes say whether a text is `typedef`. -/
theorem isTypedef_cString (b : Bytes) : isTypedef (cString b) = decide (cString (b.take 8) = bytesOf "typedef") := by
  have plain : cString (bytesOf "typedef") = bytesOf "typedef" := by decide +kernel
  have long : (bytesOf "typedef").length = 7 := by decide +kernel
  have shorter : cString (b.take 8) = (cString b).take 8 := List.take_takeWhile.symm
  rw [isTypedef, strEq, plain, cString_of_no_nul (no_nul_cString b), shorter, Bool.eq_iff_iff, beq_iff_eq,
    decide_eq_true_iff]
  constructor
  · intro same
    rw [same, List.take_of_length_le (by omega)]
  · intro same
    have length := congrArg List.length same
    rw [List.length_take, long] at length
    rw [← same, List.take_of_length_le (by omega)]

theorem textError_alike (next : Nat) (size : store'.length = store.length)
    (first : known = true → store'.take 8 = store.take 8) :
    (Scan.textError next store).Alike known (.textError next store') := by
  refine ⟨.error (fun known' => ?_) .nil, rfl, size, fun known' => first ?_⟩
  · rw [isTypedef_cString, isTypedef_cString, first known']
  · rwa [Scan.textError, Token.isLong_parseError, Bool.or_false] at known'

/-- A token that does not come from the store. -/
theorem same_alike (t : Token) (next : Nat) (short : t.isLong = false) (size : store'.length = store.length)
    (first : known = true → store'.take 8 = store.take 8) : Scan.Alike known ⟨t, next, store⟩ ⟨t, next, store'⟩ :=
  ⟨.same t .nil, rfl, size, fun known' => first (by rwa [short, Bool.or_false] at known')⟩

theorem isLong_identifierToken {text : Bytes} (long : (identifierToken text).isLong = true) : 8 ≤ text.length := by
  unfold identifierToken at long
  split at long
  · exact of_decide_eq_true long
  · cases long

theorem scanIdentifier_alike (fuel : Nat) : ∀ {n : Nat} {store store' : Bytes}, store'.length = store.length →
    store'.take n = store.take n → (known = true → store'.take 8 = store.take 8) →
    Option.Rel (Scan.Alike known) (scanIdentifier input len p fuel n store) (scanIdentifier input len p fuel n store') := by
  induction fuel with
  | zero => exact fun _ _ _ => .none
  | succ fuel ih =>
    intro n store store' size written first
    have longer := take_set_same (input.byte (p + n)) size written
    have size' : (store'.set n (input.byte (p + n))).length = (store.set n (input.byte (p + n))).length := by
      rw [List.length_set, List.length_set, size]
    unfold scanIdentifier
    by_cases full : n + 1 ≥ len
    · rw [if_pos full, if_pos full]
      exact .some (textError_alike _ size first)
    · rw [if_neg full, if_neg full]
      have first' := take_set_first n (input.byte (p + n)) first
      cases more : isIdChar (input.byte (p + (n + 1))) with
      | true => exact ih size' longer first'
      | false =>
        dsimp only
        rw [List.take_set_of_le (Nat.le_refl _), List.take_set_of_le (Nat.le_refl _), longer]
        refine .some ⟨.same _ .nil, rfl, by simp [size], fun known' => ?_⟩
        rcases Bool.or_eq_true_iff.mp known' with before | long
        · exact take_set_first (n + 1) 0 first' before
        · have enough := isLong_identifierToken long
          have eight : ∀ b : Bytes, b.take 8 = (b.take (n + 1)).take 8 := by
            intro b
            rw [List.length_take] at enough
            rw [List.take_take, Nat.min_eq_left (by omega)]
          rw [eight, eight (List.set _ _ _), List.take_set_of_le (Nat.le_refl _),
            List.take_set_of_le (Nat.le_refl _), longer]

theorem scanString_alike {start : Nat} (fuel : Nat) : ∀ {p out : Nat} {store store' : Bytes},
    store'.length = store.length → store'.take out = store.take out → (known = true → store'.take 8 = store.take 8) →
    Option.Rel (Scan.Alike known) (scanString input len start fuel p out store)
      (scanString input len start fuel p out store') := by
  induction fuel with
  | zero => exact fun _ _ _ => .none
  | succ fuel ih =>
    intro p out store store' size written first
    unfold scanString
    by_cases closed : input.byte p = input.byte start
    · rw [if_pos closed, if_pos closed]
      dsimp only
      rw [List.take_set_of_le (Nat.le_refl _), List.take_set_of_le (Nat.le_refl _), written]
      exact .some (same_alike _ _ rfl (by simp [size]) (take_set_first out 0 first))
    · rw [if_neg closed, if_neg closed]
      by_cases bad : (clexParseChar input p).1 < 0
      · simp only [if_pos bad]
        exact .some (textError_alike _ size first)
      · simp only [if_neg bad]
        by_cases full : out + 1 > len
        · simp only [if_pos full]
          exact .some (textError_alike _ size first)
        · simp only [if_neg full]
          exact ih (by simp [size]) (take_set_same _ size written) (take_set_first _ _ first)

theorem scanChar_short {start : Nat} : (scanChar input start).1.isLong = false := by
  unfold scanChar
  split
  split
  · rfl
  · split
    · rfl
    · rfl

theorem scanNumber_short {r : Token × Nat} (run : scanNumber input strtod fuel p = some r) : r.1.isLong = false := by
  unfold scanNumber at run
  split at run
  · obtain ⟨n, -, run⟩ := Option.bind_eq_some_iff.mp run
    split at run
    · cases run
      rfl
    · cases run
      rfl
  · obtain ⟨q, -, run⟩ := Option.bind_eq_some_iff.mp run
    split at run
    · cases run
      rfl
    · split at run
      · obtain ⟨n, -, run⟩ := Option.bind_eq_some_iff.mp run
        cases run
        rfl
      · obtain ⟨n, -, run⟩ := Option.bind_eq_some_iff.mp run
        cases run
        rfl

theorem scanToken_alike (size : store'.length = store.length) (first : known = true → store'.take 8 = store.take 8) :
    Option.Rel (Scan.Alike known) (scanToken input strtod len fuel p store) (scanToken input strtod len fuel p store') := by
  unfold scanToken
  dsimp only
  split
  · exact scanIdentifier_alike _ size rfl first
  · split
    · exact scanString_alike _ size rfl first
    · split
      · exact .some (same_alike _ _ scanChar_short size first)
      · split
        · cases run : scanNumber input strtod fuel p with
          | none => exact .none
          | some r => exact .some (same_alike r.1 r.2 (scanNumber_short run) size first)
        · split
          · exact .some (same_alike _ _ rfl size first)
          · exact .some (same_alike _ _ rfl size first)

/-- A call that returns a token returns it on any store. -/
theorem scanCall_alike (size : store'.length = store.length) (first : known = true → store'.take 8 = store.take 8)
    (call : scanCall input strtod len fuel p store = some (.token s)) :
    ∃ s', scanCall input strtod len fuel p store' = some (.token s') ∧ s.Alike known s' := by
  unfold scanCall at call ⊢
  cases skip : skipSpace input fuel fuel p with
  | none =>
    rw [skip] at call
    cases call
  | some r =>
    rw [skip] at call
    cases r with
    | unclosed start q =>
      cases call
      exact ⟨_, rfl, same_alike _ _ rfl size first⟩
    | ends q =>
      dsimp only at call ⊢
      by_cases done : q = input.eof
      · rw [if_pos done] at call
        cases call
      · rw [if_neg done] at call ⊢
        obtain ⟨s', token, here⟩ := Option.map_eq_some_iff.mp call
        obtain rfl := Scanned.token.inj here
        have alike := @scanToken_alike known input strtod len fuel q store store' size first
        rw [token] at alike
        cases other : scanToken input strtod len fuel q store' with
        | none =>
          rw [other] at alike
          cases alike
        | some s'' =>
          rw [other] at alike
          cases alike with
          | some same => exact ⟨s'', rfl, same⟩

/-- The end of the input does not depend on the store. -/
theorem scanCall_ended_alike (call : scanCall input strtod len fuel p store = some .ended) (store' : Bytes) :
    scanCall input strtod len fuel p store' = some .ended := by
  unfold scanCall at call ⊢
  cases skip : skipSpace input fuel fuel p with
  | none =>
    rw [skip] at call
    cases call
  | some r =>
    rw [skip] at call
    cases r with
    | unclosed start q => cases call
    | ends q =>
      dsimp only at call ⊢
      by_cases done : q = input.eof
      · rw [if_pos done]
      · rw [if_neg done] at call
        obtain ⟨s, -, other⟩ := Option.map_eq_some_iff.mp call
        cases other

/-- Calls that were made on another store return the first tokens, but for what errors leave behind. -/
theorem Reads.follows_alike {scans : List Scan} {ts : List Token} {end_ : Bytes} (reads : Reads input strtod p store scans)
    (size : store'.length = store.length) (calls : Scans input strtod 1024 p store' ts q end_) :
    ∃ before rest last, scans = before ++ rest ∧ SameTokens false (before.map Scan.token) ts ∧
      Reads input strtod q last rest ∧ end_.length = last.length ∧
      ((before.map Scan.token).any Token.isLong = true → end_.take 8 = last.take 8) := by
  induction calls with
  | nil => exact ⟨[], scans, store, rfl, .nil, reads, size, nofun⟩
  | @snoc ts q fuel end_ s made call ih =>
    obtain ⟨before, rest, last, rfl, alike, here, size', first⟩ := ih
    cases here with
    | ended inside call' => cases scanCall_unique call (scanCall_ended_alike call' end_)
    | @token _ _ s' rest moves inside call' later =>
      obtain ⟨s'', call'', same⟩ := scanCall_alike size' first call'
      cases scanCall_unique call call''
      have all : (before ++ [s']).map Scan.token = before.map Scan.token ++ [s'.token] := List.map_append
      refine ⟨before ++ [s'], rest, s'.store, by simp, ?_, ?_, same.size, ?_⟩
      · rw [all]
        exact alike.append same.token
      · rw [same.next]
        exact later
      · rw [all, List.any_append]
        intro known'
        exact same.first (by simpa using known')

end Calls

/-! ## The lexer on a text -/

/-- Whatever lies behind the text in memory and whatever the store held, every call starts inside the text, and returns
the next of these tokens, or says that there is none. -/
def LexesAlike (strtod : Nat → BitVec 64 × Nat) (text : Bytes) (tokens : List Token) : Prop :=
  ∀ ⦃input : Input⦄ ⦃m₀ m : Mem⦄ ⦃l : StringAt⦄ ⦃lexer₀ lexer : Lexer⦄ ⦃store₀ : Bytes⦄ ⦃n : Nat⦄
    ⦃f : Footprint⦄,
    SameText (Input.ofBytes text) input → Called input strtod m₀ l lexer₀ store₀ n lexer f m →
    lexer.parsePoint ≤ text.length ∧
    ∃ before rest ts store, tokens = before ++ rest ∧ before.length = n ∧
      SameTokens false before ts ∧ Holds input strtod m₀ l lexer₀ store₀ lexer f m ts store ∧
      ∀ fuel, text.length < fuel → ∃ lexer' m',
        stbCLexerGetToken input strtod fuel lexer m = .ok ((!rest.isEmpty, lexer'), m')

section Text

variable {strtod : Nat → BitVec 64 × Nat} {text : Bytes} {input : Input} {m₀ m : Mem} {l : StringAt}
  {lexer₀ lexer : Lexer} {store₀ : Bytes} {f : Footprint}

theorem lexesAlike_of_closed (strtod_ok : StrtodOk (Input.ofBytes text) strtod) (closed : Closed strtod text) :
    LexesAlike strtod text (tokensOf strtod text) := by
  intro input m₀ m l lexer₀ lexer store₀ n f same reached
  have first : store₀.length = 1025 := by
    induction reached with
    | init size _ => exact size
    | call _ _ ih => exact ih
    | others _ _ ih => exact ih
  obtain ⟨ts, store, count, holds⟩ := called_scanned reached
  have reads := (tokensOf_reads strtod_ok closed).transfer same nul_ofBytes strtod_ok
  have size : store₀.length = freshStore.length := first.trans List.length_replicate.symm
  obtain ⟨before, rest, last, split, alike, here, size', first⟩ := reads.follows_alike size holds.scans
  have eof : input.eof = text.length := same.eof
  have inside := here.inside
  refine ⟨by omega, before.map Scan.token, rest.map Scan.token, ts, store, ?_, ?_, alike, holds, fun fuel enough => ?_⟩
  · rw [tokensOf, split, List.map_append]
  · rw [← alike.length_eq, count]
  · obtain ⟨room, owned⟩ := store_ready holds.storage holds.storageLen holds.size holds.owned
    have does := @call_scans input strtod lexer m₀ m _ store fuel owned room
    rw [holds.storageLen] at does
    have turns : ∀ {r : Scanned}, scanCall input strtod 1024 (input.eof + 1) lexer.parsePoint store = some r →
        scanCall input strtod 1024 fuel lexer.parsePoint store = some r := scanCall_mono (by omega)
    cases here with
    | ended _ call =>
      rw [turns (scanCall_ended_alike call store)] at does
      exact ⟨_, m, does⟩
    | token _ _ call later =>
      obtain ⟨s, call', -⟩ := scanCall_alike size' first call
      rw [turns call'] at does
      obtain ⟨lexer', m', run, -⟩ := does
      exact ⟨lexer', m', run⟩

/-- Every call that `scansFrom` makes is one of the lexer. -/
theorem called_scansFrom (k : Nat) : ∀ {n : Nat} {lexer : Lexer} {m : Mem} {ts : List Token} {store : Bytes},
    Called input strtod m₀ l lexer₀ store₀ n lexer f m → Holds input strtod m₀ l lexer₀ store₀ lexer f m ts store →
    ∀ s ∈ scansFrom input strtod k lexer.parsePoint store,
      ∃ n' lexer' m', Called input strtod m₀ l lexer₀ store₀ n' lexer' f m' ∧ lexer'.parsePoint = s.next := by
  induction k with
  | zero => exact fun _ _ s here => absurd here List.not_mem_nil
  | succ k ih =>
    intro n lexer m ts store reached holds s here
    rw [scansFrom] at here
    split at here
    · rename_i s' call
      obtain ⟨room, owned⟩ := store_ready holds.storage holds.storageLen holds.size holds.owned
      have does := @call_scans input strtod lexer m₀ m _ store (input.eof + 1) owned room
      rw [holds.storageLen, call] at does
      obtain ⟨lexer', m', run, next, -⟩ := does
      obtain ⟨s'', call', holds'⟩ := holds.call run
      cases scanCall_unique call call'
      have reached' := reached.call run
      rcases List.mem_cons.mp here with rfl | later
      · exact ⟨_, lexer', m', reached', next⟩
      · rw [← next] at later
        exact ih reached' holds' s later
    · cases here

/-- In every memory, with any store, the lexer reads the tokens of the text, exactly if its literals are closed. -/
theorem lexesAlike_iff (strtod_ok : StrtodOk (Input.ofBytes text) strtod) :
    LexesAlike strtod text (tokensOf strtod text) ↔ Closed strtod text := by
  refine ⟨fun alike s here => ?_, lexesAlike_of_closed strtod_ok⟩
  obtain ⟨l, m, -, owned⟩ := moeStringAlloc_owns (owns_refl Mem.empty)
    (rfl : stringContent none 1024 = some (List.replicate 1024 0))
  rw [strBlocks_store] at owned
  have start : Called (Input.ofBytes text) strtod Mem.empty l ⟨0, 0, 0, 0, 0, 0, 0, 0, none, 0⟩ freshStore 0 _ 0 m :=
    .init List.length_replicate owned
  obtain ⟨ts, store, count, holds⟩ := called_scanned start
  obtain rfl := List.length_eq_zero_iff.mp count
  obtain ⟨-, -, rfl⟩ := holds.scans.unique .nil rfl
  obtain ⟨n, lexer, m', reached, next⟩ := called_scansFrom _ start holds s here
  rw [← next]
  exact (alike ⟨rfl, fun _ _ => rfl⟩ reached).1

end Text

end Stb

end MoeToolchain
