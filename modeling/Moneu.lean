import Moneu.Chain.Agreement
import Moneu.Chain.Decoding
import Moneu.Chain.Heights
import Moneu.Chain.MedianTime
import Moneu.Chain.ReorgQueue
import Moneu.Chain.ScriptClasses
import Moneu.Consensus.Asert
import Moneu.Consensus.PoolSettle
import Moneu.Mining.Assembly
import Moneu.Mining.Timestamps
import Moneu.Net.Download
import Moneu.Net.MessageLoop
import Moneu.Primitives.Canonical
import Moneu.Primitives.Commitment
import Moneu.Primitives.Keys
import Moneu.Rpc.SentPayment
import Moneu.Storage.BlockFiles
import Moneu.Wallet.Creation
import Moneu.Wallet.FileCut
import Moneu.Wallet.NoiseTreeBuilder
