import LogoEngine.Emit.Basic

/-!
# Checked inputs

An input that its consumer cannot use goes through a **retry loop**: if `ERRACT` asks for it, the
error is written, `PAUSE` supplies a new candidate and the check is repeated; otherwise the error
is returned.

Consumers are known by their names, which is how messages call them.
-/

namespace LogoEngine.Emit

/-! ### Values that are rejected -/

/-- The error that a consumer does not like a value. -/
def dislike (who : Ref) (bad : Reg) : Emit Reg := do
  let name ← const who
  call .errDoesntLike [name, bad]

/-- Returns the error. Another block is opened. -/
def reject (who : Ref) (bad : Reg) (next : Label) : Emit Unit := do
  let error ← dislike who bad
  endBlock (.ret error) next

/-- Asks for another value if `ERRACT` is set, and else gives up. The block that asks is opened. -/
def askOrGiveUp (ask giveUp : Label) : Emit Unit := do
  let erract ← call .erract []
  endBlock (.branch erract ask giveUp) ask

/-- Writes the error, and pauses for a reply. -/
def askAgain (who : Ref) (bad : Reg) : Emit Reg := do
  let error ← dislike who bad
  perform .writeError [error]
  call .pause []

/-- Goes to one label if a reply is data, and to another if not. A block is opened. -/
def branchOnData (reply : Reg) (data notData next : Label) : Emit Unit := do
  let isData ← call (.hasTag dataMask) [reply]
  endBlock (.branch isData data notData) next

/-! ### Retry loops -/

/-- Checks a value until it passes; `check` emits the test of the candidate. A reply that is not
data is returned as it is. -/
def retryDatum (who : Ref) (src : Reg) (check : Reg → Emit Reg) : Emit Reg := do
  let candidate ← freshReg .datum
  move candidate src
  let again ← freshLabel
  let rejected ← freshLabel
  let ask ← freshLabel
  let notData ← freshLabel
  let giveUp ← freshLabel
  let accept ← freshLabel
  endBlock (.jump again) again
  let valid ← check candidate
  endBlock (.branch valid accept rejected) rejected
  askOrGiveUp ask giveUp
  let reply ← askAgain who candidate
  move candidate reply
  branchOnData reply again notData notData
  endBlock (.ret candidate) giveUp
  reject who candidate accept
  return candidate

/-- Checks a number until it passes. A reply must itself read as a number, and one that is not
data leads to the top level. -/
def retryReal (who : Ref) (src : Reg) (check : Reg → Emit Reg) : Emit Reg := do
  let candidate ← freshReg .real
  move candidate src
  let bad ← freshReg .datum
  let again ← freshLabel
  let rejected ← freshLabel
  let ask ← freshLabel
  let readReply ← freshLabel
  let notData ← freshLabel
  let giveUp ← freshLabel
  let accept ← freshLabel
  endBlock (.jump again) again
  let valid ← check candidate
  endBlock (.branch valid accept rejected) rejected
  let word ← call .wordFromReal [candidate]
  move bad word
  askOrGiveUp ask giveUp
  let reply ← askAgain who bad
  branchOnData reply readReply notData readReply
  move bad reply
  let number ← call .realOf [reply]
  move candidate number
  let isNumber ← call .realValid [reply]
  endBlock (.branch isNumber again ask) notData
  let escape ← call .errToplevel []
  endBlock (.ret escape) giveUp
  reject who bad accept
  return candidate

/-- The numeric reading of a value, checked. -/
def realFromDatum (who : Ref) (src : Reg) : Emit Reg := do
  let result ← freshReg .real
  let _ ← retryDatum who src fun candidate => do
    let value ← call .realOf [candidate]
    move result value
    call .realValid [candidate]
  return result

/-- The truth value of a value, checked. -/
def truthFromDatum (who : Ref) (src : Reg) : Emit Reg := do
  let result ← freshReg .truth
  let _ ← retryDatum who src fun candidate => do
    let value ← call .truthOf [candidate]
    move result value
    call .truthValid [candidate]
  return result

/-- A value whose kind must be in a set of kinds. -/
def datumOfKind (who : Ref) (mask : Nat) (src : Reg) : Emit Reg :=
  retryDatum who src fun candidate => call (.hasTag mask) [candidate]

/-! ### Checks on numbers -/

/-- A 32-bit integer. -/
def int32 (who : Ref) (src : Reg) : Emit Reg :=
  retryReal who src isInt

/-- A number that compares with zero as given. -/
def comparedToZero (op : CompareOp) (who : Ref) (src : Reg) : Emit Reg :=
  retryReal who src fun candidate => do
    let zero ← real 0.0
    compare op candidate zero

/-- A 32-bit integer that is not zero. -/
def nonzeroInt32 (who : Ref) (src : Reg) : Emit Reg :=
  retryReal who src fun candidate => do
    let zero ← real 0.0
    let nonzero ← compare .ne candidate zero
    let integral ← isInt candidate
    and nonzero integral

/-- A 32-bit integer above zero. -/
def positiveInt32 (who : Ref) (src : Reg) : Emit Reg :=
  retryReal who src fun candidate => do
    let zero ← real 0.0
    let positive ← compare .gt candidate zero
    let integral ← isInt candidate
    and positive integral

/-- A 32-bit integer that is not negative. -/
def count (who : Ref) (src : Reg) : Emit Reg :=
  retryReal who src fun candidate => do
    let zero ← real 0.0
    let nonnegative ← compare .ge candidate zero
    let integral ← isInt candidate
    and integral nonnegative

end LogoEngine.Emit
