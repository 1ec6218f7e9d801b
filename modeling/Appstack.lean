import Appstack.Couchstore.Arena
import Appstack.Couchstore.CollateOrder
import Appstack.Couchstore.DocinfoRanges
import Appstack.Couchstore.DuplicateIds
import Appstack.Couchstore.FlushQuota
import Appstack.Couchstore.IoTransparent
import Appstack.Couchstore.Recovery
import Appstack.Couchstore.RootRounds
import Appstack.Couchstore.SumsExact
import Appstack.EpEngine.Dispatcher
import Appstack.EpEngine.HashTableResize
import Appstack.EpEngine.SyncRegistry
import Appstack.EpEngine.TapCounters
import Appstack.EpEngine.TapDelivery
import Appstack.Evs.InputMap
import Appstack.Galera.CertDepends
import Appstack.Galera.CertEarly
import Appstack.Galera.Fifo
import Appstack.Galera.Vlq
import Appstack.Galera.WriteSetKeys
import Appstack.Gcs.QuorumOrder
import Appstack.Gcs.StateCodec
import Appstack.Libvbucket.Compare
import Appstack.Memcached.AssocRuns
import Appstack.Memcached.Lru
import Appstack.Memcached.Slabs
import Appstack.Moxi.Histogram
import Appstack.NsServer.AutoFailoverRuns
import Appstack.NsServer.BalancedMap
import Appstack.NsServer.ConfigSaver
import Appstack.NsServer.JanitorPass
import Appstack.NsServer.MergeAbsorbs
import Appstack.NsServer.Replicators
import Appstack.NsServer.VbucketMoves
import Appstack.Pc.Quorum
import Appstack.Pc.Rebootstrap
