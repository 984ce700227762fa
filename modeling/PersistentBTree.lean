import PersistentBTree.Imperative.Bytes
import PersistentBTree.Memory.Guarantees
import PersistentBTree.Memory.InsertGuarantees
import PersistentBTree.Memory.LookupGuarantees
import PersistentBTree.Memory.RebalanceProperties
import PersistentBTree.Memory.CopyGuarantees
import PersistentBTree.Memory.SiblingProperties
import PersistentBTree.Pages.ClientProperties
import PersistentBTree.Pages.CodecProperties
import PersistentBTree.Tables.Durability
import PersistentBTree.Tables.RebalanceGuarantees
import PersistentBTree.Tables.Record
import PersistentBTree.Imperative.Scan
import PersistentBTree.Queries.CreateGuarantees
import PersistentBTree.Queries.DataStructureProperties
import PersistentBTree.Queries.FieldGuarantees
import PersistentBTree.Queries.RecordGuarantees
import PersistentBTree.Tables.IteratorGuarantees
import PersistentBTree.Tables.WalkGuarantees
import PersistentBTree.Tables.LookupGuarantees
import PersistentBTree.Queries.HeaderGuarantees
import PersistentBTree.Queries.InsertGuarantees
import PersistentBTree.Queries.SessionGuarantees
import PersistentBTree.Tables.EraseGuarantees
import PersistentBTree.Queries.TokenGuarantees
import PersistentBTree.Sockets.ReadUntilGuarantees
import PersistentBTree.Pages.Addresses
import PersistentBTree.Queries.StringGuarantees
import PersistentBTree.Tables.MultimapGuarantees
import PersistentBTree.Tables.ErasePathsGuarantees
import PersistentBTree.Coroutines.RunProperties
import PersistentBTree.Coroutines.Guarantees
import PersistentBTree.Sockets.Responses
import PersistentBTree.Coroutines.ServerGuarantees
import PersistentBTree.Coroutines.HandlerGuarantees
import PersistentBTree.Memory.SizeGuarantees
import PersistentBTree.Memory.StackGuarantees
import PersistentBTree.Memory.RangeGuarantees
import PersistentBTree.Pages.VolumeGuarantees
import PersistentBTree.Sockets.ConnectionGuarantees
import PersistentBTree.Queries.CatalogueGuarantees
import PersistentBTree.Queries.ExecutionGuarantees
