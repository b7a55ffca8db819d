import Terracoin.Wallet.AcentryRecords
import Terracoin.Wallet.Balance

/-!
# Accounts

Every payment from the wallet is made from an account, which the transaction names; every address in
the address book belongs to one, and what is received on an address that is not there belongs to the
account "". Accounting entries move amounts between accounts without a transaction. The account "*"
stands for all of them and has nothing of its own.
-/

namespace Terracoin

open Std (TreeMap)
open AcentryRecords (allAccounts)

structure JSONRPCError where
  code : Int
  message : String
deriving DecidableEq, Repr

/-- `CWalletTx`, with what the accounts and the lists of transactions read. -/
structure AccountTx extends CWalletTx where
  strFromAccount : Text
  nOrderPos : Int64
  nTimeReceived : UInt32
  nTimeSmart : UInt32
  mapValue : mapValue_t

def AccountTx.getTxTime (wtx : AccountTx) : Int :=
  let n := wtx.nTimeSmart
  if n ≠ 0 then n.toNat else wtx.nTimeReceived.toNat

/-- `pwalletMain`, and the accounting entries in its file. -/
structure AccountWallet [EllipticCurve] [ByteHashing160] where
  keystore : CBasicKeyStore
  vchDefaultKey : CPubKey
  /-- The accounts of addresses; `none` is `CNoDestination`. -/
  mapAddressBook : List (Option CTxDestination × Text)
  mapWallet : TreeMap uint256 AccountTx
  pindexBest : Option CBlockIndex
  nOrderPosNext : Int64
  acentries : AcentryRecords
  /-- A string has fewer than `2 ^ 64` bytes. -/
  size_lt : ∀ (key : Text) e, acentries.records[key]? = some e → e.strAccount.length < 2 ^ 64
  /-- The static variable of `walletdb.cpp`. -/
  nAccountingEntryNumber : UInt64

namespace AccountWallet

section

variable [EllipticCurve] [ByteHashing160]

def toWalletState (w : AccountWallet) : WalletState where
  keystore := w.keystore
  mapAddressBook := w.mapAddressBook.filterMap Prod.fst
  vchDefaultKey := w.vchDefaultKey
  mapWallet := w.mapWallet.map fun _ wtx => wtx.toCWalletTx
  pindexBest := w.pindexBest

/-- `mapAddressBook.find(address)`. -/
def findAccount (w : AccountWallet) (address : Option CTxDestination) : Option Text :=
  w.mapAddressBook.lookup address

/-- The account that something received on an address belongs to. -/
def accountOf (w : AccountWallet) (address : Option CTxDestination) : Text :=
  (w.findAccount address).getD []

variable [Hashing]

/-- `wtx.GetAmounts`: `listReceived`, `listSent`, `nFee` and `strSentAccount`. -/
def getAmounts (w : AccountWallet) (wtx : AccountTx) :
    Option (List (Option CTxDestination × Int) × List (Option CTxDestination × Int) × Int × Text) :=
  (w.toWalletState.getAmounts wtx.toCWalletTx).map fun (listReceived, listSent, nFee) =>
    (listReceived, listSent, nFee, wtx.strFromAccount)

/-- `wtx.GetDepthInMainChain()`. -/
def depth (w : AccountWallet) (wtx : AccountTx) : Nat := w.toWalletState.depth wtx.toCMerkleTx

end

end AccountWallet

end Terracoin
