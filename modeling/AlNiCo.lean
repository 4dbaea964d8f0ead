import AlNiCo.Placement.Agreement
import AlNiCo.Nic.Dispatch
import AlNiCo.Nic.Clusters
import AlNiCo.Nic.Restart
import AlNiCo.Host.Bitmap
import AlNiCo.Host.Reception
import AlNiCo.Rpc.Ids
import AlNiCo.Strife.Progress
import AlNiCo.Host.Feature
import AlNiCo.Tpcc.Deliveries
import AlNiCo.Tpcc.OrderIds
import AlNiCo.Sto.TicTocCompressed
import AlNiCo.Sto.CommitProtocol
import AlNiCo.Sto.Snapshot
import AlNiCo.Sto.Opacity
import AlNiCo.Sto.RowPresence
import AlNiCo.Sto.OccSerial
import AlNiCo.ModelUpdate.Guideline
import AlNiCo.Nic.Addresses
import AlNiCo.Rpc.SendAccounting
import AlNiCo.Sto.MvSerial
import AlNiCo.Tpcc.StockOrder
import AlNiCo.Sto.VersionGrowth
import AlNiCo.Sto.LockBits
import AlNiCo.Sto.RcuSet
import AlNiCo.Sto.HashIndex
import AlNiCo.Sto.RowInsert
import AlNiCo.Sto.TicTocCommit
import AlNiCo.Sto.MvCollect
import AlNiCo.Host.SlotRanges
import AlNiCo.Host.YcsbKeys
import AlNiCo.Sto.CicadaTable
import AlNiCo.Rpc.ClientSendAccounting
import AlNiCo.Store.Publication
import AlNiCo.Tpcc.OrderedKeys
import AlNiCo.Sto.RangeScanner
import AlNiCo.Store.Locking
